import AhoCorasick.Proofs.Bounds

/-!
# Every loop stops

Three loops follow ids that are stored in an automaton, and nothing in their text says that they come to an end. A
failure link leads to a shorter word (`Automaton.depth_fail_lt`), also where only the words up to some length have
been linked, and that is as far as the pass looks (`Linking.Moment.Sound.search_stops`). So the search for a
transition stops. The pass over the queue stops because no state has its turn twice, and the search for a match
because each chain of output links is shorter than the automaton is large (`Automaton.Stands.exists_stops`).
-/

namespace AhoCorasick

namespace Automaton

variable {a : Automaton} {labels patterns : List Bytes} {s t : StateId} {b : UInt8} {v : Bytes}

theorem depth_fail_lt (h : a.trie.Holds labels patterns) (hlinked : a.LinkedUpTo labels patterns v.length)
    (hs : labels[s]? = some v) (hroot : s ≠ root) : a.trie.depth (a.fail s) < a.trie.depth s := by
  have hv : v ≠ [] := by
    rintro rfl
    exact hroot (h.label_inj hs h.root_label)
  obtain ⟨u, hu, hfail⟩ := (hlinked.linked hs hv (Nat.le_refl _)).fail
  rw [h.depth_eq hfail, h.depth_eq hs]
  exact hu.length_lt

theorem depth_lt_of_fallBack (h : a.trie.Holds labels patterns) (hlinked : a.LinkedUpTo labels patterns v.length)
    (hs : labels[s]? = some v) (hagain : a.fallBack b s = .again t) : a.trie.depth t < a.trie.depth s := by
  obtain ⟨hroot, rfl⟩ := fallBack_eq_again hagain
  exact depth_fail_lt h hlinked hs hroot

theorem depth_le_of_fallBack (h : a.trie.Holds labels patterns) (hs : labels[s]? = some v)
    (hdone : a.fallBack b s = .done t) : a.trie.depth t ≤ a.trie.depth s + 1 := by
  rw [fallBack] at hdone
  split at hdone
  · next t' hchild =>
    obtain rfl := Round.done.inj hdone
    rw [h.depth_eq ((h.child_iff hs).mp hchild), h.depth_eq hs, List.length_append, List.length_singleton]
  · split_ifs at hdone
    obtain rfl := Round.done.inj hdone
    rw [h.depth_eq h.root_label]
    exact Nat.zero_le _

end Automaton

namespace Linking

namespace Moment

variable {t : Trie} {labels patterns : List Bytes} {l : Linking} {s c r : StateId} {b : UInt8}
  {left : List (UInt8 × StateId)}

theorem Sound.exists_label_search (h : Sound t labels patterns ⟨l, .search s b c r left⟩)
    (ht : t.Holds labels patterns) :
    ∃ u, labels[r]? = some u ∧ l.automaton.LinkedUpTo labels patterns u.length := by
  cases h with
  | search h hsplit hl hr =>
    have hmidway := h.midway ht hsplit hl
    obtain ⟨v, -, hfail, hlinked⟩ := hmidway.exists_label_fail
    obtain ⟨u, hu, hsuffix⟩ :=
      Automaton.exists_label_of_reaches (hmidway.holds ht) hlinked hfail (Nat.le_refl _) hr
    exact ⟨u, hu, hlinked.mono hsuffix.length_le⟩

/-- The search for a failure link goes to smaller depths and stops, though the states that are deeper than its own
have not all been linked. -/
theorem Sound.search_stops (h : Sound t labels patterns ⟨l, .search s b c r left⟩)
    (ht : t.Holds labels patterns) :
    (r ≠ root → l.automaton.trie.depth (l.automaton.fail r) < l.automaton.trie.depth r) ∧
      ∃ n, n ≤ l.automaton.trie.depth r + 1 ∧
        Round.Stops (l.automaton.fallBack b) n r (l.automaton.next r b) := by
  obtain ⟨u, hu, hlinked⟩ := h.exists_label_search ht
  have hholds : l.automaton.trie.Holds labels patterns := (h.trie_eq ht).symm ▸ ht
  refine ⟨Automaton.depth_fail_lt hholds hlinked hu, ?_⟩
  rw [hholds.depth_eq hu]
  exact Automaton.exists_stops_fallBack hholds hlinked hu b

end Moment

end Linking

namespace Automaton

variable {config : Builder} {a : Automaton} {patterns : List Bytes} {h : Haystack} {c : Cursor}

theorem Recognizes.next_stops (ha : a.Recognizes patterns) (hc : Cursor.Reached a h c) :
    (∃ n, Round.Stops (a.advance h) n c.place (c.next.1, c.next.2.place)) ∧
      ∀ p, Round.Reaches (a.advance h) c.place p → p.state < a.size := by
  obtain ⟨n, rfl⟩ := hc.exists_after
  have hvisits := Visits.after (h := h) ha n
  obtain ⟨words, hstands⟩ := hvisits.stands ha
  refine ⟨?_, fun p hreach => ((hvisits.trans hreach).bounds ha).1⟩
  rw [Cursor.next, Cursor.automaton_after, Cursor.haystack_after]
  exact hstands.exists_stops ha

/-! ## Main result -/

/-- **The loops stop.** In a build, the pass over the queue does, and at each of its moments so does the search for the
failure link that is being made. In a built automaton the search for the next state does, from every state and for
every byte, since each failure link leads to a smaller depth. In a text every call for the next match does, wherever
the cursor has got to. -/
theorem loops_stop (config : Builder) (patterns : List Bytes) :
    (∀ t, Trie.ofPatterns config patterns = .ok t →
      (∃ n, Round.Stops Linking.Moment.round n (.start t) (Linking.finish t)) ∧
      ∀ l parent b c r children,
        Round.Reaches Linking.Moment.round (.start t) ⟨l, .search parent b c r children⟩ →
        (r ≠ root → l.automaton.trie.depth (l.automaton.fail r) < l.automaton.trie.depth r) ∧
          ∃ n, n ≤ l.automaton.trie.depth r + 1 ∧
            Round.Stops (l.automaton.fallBack b) n r (l.automaton.next r b)) ∧
    ∀ a, config.build patterns = .ok a →
      (∀ s < a.size, (s ≠ root → a.trie.depth (a.fail s) < a.trie.depth s) ∧
        ∀ b, ∃ n, n ≤ a.trie.depth s + 1 ∧ Round.Stops (a.fallBack b) n s (a.next s b)) ∧
      ∀ h c, Cursor.Reached a h c →
        (∃ n, Round.Stops (a.advance h) n c.place (c.next.1, c.next.2.place)) ∧
          ∀ p, Round.Reaches (a.advance h) c.place p → p.state < a.size := by
  refine ⟨fun t ht => ?_, fun a hbuild => ?_⟩
  · have hholds := Trie.holds_ofPatterns ht
    exact ⟨Linking.Moment.stops_start hholds, fun l parent b c r children hreach =>
      (Linking.Moment.sound_of_reaches hholds hreach).search_stops hholds⟩
  · have ha := recognizes_of_build hbuild
    refine ⟨fun s hs => ?_, fun h c => ha.next_stops⟩
    obtain ⟨v, hlabel⟩ := ha.holds.exists_label hs
    have hlinked := ha.linkedUpTo v.length
    refine ⟨depth_fail_lt ha.holds hlinked hlabel, fun b => ?_⟩
    rw [ha.holds.depth_eq hlabel]
    exact exists_stops_fallBack ha.holds hlinked hlabel b

/-- In "aab" the state of "aa" falls back to that of "a", and from there to the root. So does the search for the
failure link of "aab" itself, which starts at "a". -/
theorem loops_stop_aab :
    ∃ t l a, Trie.ofPatterns {} [[97, 97, 98]] = .ok t ∧ ({} : Builder).build [[97, 97, 98]] = .ok a ∧
      Round.Reaches Linking.Moment.round (.start t) ⟨l, .search 2 98 3 1 []⟩ ∧
      l.automaton.trie.depth (l.automaton.fail 1) < l.automaton.trie.depth 1 ∧
      (∃ n, n ≤ 2 ∧ Round.Stops (l.automaton.fallBack 98) n 1 (l.automaton.next 1 98)) ∧
      a.trie.depth (a.fail 2) < a.trie.depth 2 ∧
      (∃ n, n ≤ 3 ∧ Round.Stops (a.fallBack 99) n 2 (a.next 2 99)) ∧
      ∃ n, Round.Stops (a.advance #[97, 99]) n {} (none, ⟨2, 0, none, 0⟩) := by
  obtain ⟨hpass, hbuilt⟩ := loops_stop {} [[97, 97, 98]]
  have hstart := @Round.Reaches.refl _ _ Linking.Moment.round (.start ⟨#[⟨.sparse #[(97, 1)], #[], 0⟩,
    ⟨.sparse #[(97, 2)], #[], 1⟩, ⟨.sparse #[(98, 3)], #[], 2⟩, ⟨.sparse #[], #[⟨0, 3⟩], 3⟩], #[3]⟩)
  have hsearch := (((((((hstart.again rfl).again rfl).again rfl).again rfl).again rfl).again rfl).again rfl).again rfl
  obtain ⟨hlinking, hstops⟩ := (hpass _ rfl).2 _ _ _ _ _ _ hsearch
  obtain ⟨hstates, hcursors⟩ := hbuilt _ rfl
  obtain ⟨hdepth, hnext⟩ := hstates 2 (by decide)
  exact ⟨_, _, _, rfl, rfl, hsearch, hlinking (by decide), hstops, hdepth (by decide), hnext 99,
    (hcursors #[97, 99] _ .start).1⟩

end Automaton

end AhoCorasick
