import AhoCorasick.Proofs.Places

/-!
# How a text goes on

More text behind a text adds occurrences behind those that it has, and they end behind its end
(`occurrences_append`). What a cursor answers and where it stands then is known from the occurrences and from the
text up to the end of the last one (`Automaton.answer_after`, `Automaton.place_after_succ`). So a cursor that has
given out matches within a text only cannot tell how the text goes on (`Automaton.unread_rest_unknown`).
-/

namespace AhoCorasick

variable {patterns : List Bytes} {text : Bytes} {stop : Nat}

theorem occurrencesAt_append (hstop : stop ≤ text.length) (patterns : List Bytes) (more : Bytes) :
    occurrencesAt patterns (text ++ more) stop = occurrencesAt patterns text stop := by
  rw [occurrencesAt, occurrencesAt, List.take_append_of_le_length hstop]

theorem occurrences_append (patterns : List Bytes) (text more : Bytes) :
    ∃ later, occurrences patterns (text ++ more) = occurrences patterns text ++ later ∧
      ∀ m ∈ later, text.length < m.stop := by
  refine ⟨(List.range' (1 + text.length) more.length).flatMap (occurrencesAt patterns (text ++ more)), ?_,
    fun m hm => ?_⟩
  · rw [occurrences, List.length_append, ← List.range'_append_1, List.flatMap_append]
    congr 1
    refine List.flatMap_congr fun stop hstop => occurrencesAt_append ?_ patterns more
    rw [List.mem_range'_1] at hstop
    omega
  · obtain ⟨stop, hstop, hm⟩ := List.mem_flatMap.mp hm
    simp only [occurrencesAt, List.mem_flatMap, List.mem_map] at hm
    obtain ⟨length, -, i, -, rfl⟩ := hm
    rw [List.mem_range'_1] at hstop
    dsimp only
    omega

theorem getElem?_occurrences_iff (text more : Bytes) {m : Match} {n : Nat} :
    (occurrences patterns text)[n]? = some m ↔
      (occurrences patterns (text ++ more))[n]? = some m ∧ m.stop ≤ text.length := by
  obtain ⟨later, happend, hlater⟩ := occurrences_append patterns text more
  rw [happend]
  constructor
  · intro hm
    have hn := (List.getElem?_eq_some_iff.mp hm).1
    obtain ⟨-, -, hstop, -⟩ := mem_occurrences.mp (List.mem_of_getElem? hm)
    exact ⟨by rwa [List.getElem?_append_left hn], hstop⟩
  · rintro ⟨hm, hstop⟩
    rcases Nat.lt_or_ge n (occurrences patterns text).length with hn | hn
    · rwa [List.getElem?_append_left hn] at hm
    · rw [List.getElem?_append_right hn] at hm
      exact absurd hstop (Nat.not_le_of_gt (hlater m (List.mem_of_getElem? hm)))

namespace Automaton

variable {config : Builder} {a : Automaton} {h : Haystack} {m : Match} {n : Nat}

/-! ## After a number of calls -/

theorem answer_after (ha : a.Recognizes patterns) (h : Haystack) (n : Nat) :
    ((a.cursor h).after n).next.1 = (occurrences patterns h.toList)[n]? := by
  obtain ⟨c', hnext, -⟩ := ((Cursor.left_cursor ha h).after n).next
  rw [hnext, List.head?_drop]

theorem place_after_succ (ha : a.Recognizes patterns) (hm : (occurrences patterns h.toList)[n]? = some m) :
    ∃ w s, patterns[m.pattern]? = some w ∧ (prefixes patterns)[s]? = some w ∧
      ((a.cursor h).after (n + 1)).place = ⟨m.stop, a.stateAfter (h.toList.take m.stop), some s,
        (patterns.take m.pattern).count w + 1⟩ := by
  have hanswer := answer_after ha h n
  rw [hm] at hanswer
  have hplace := ((Cursor.left_cursor ha h).after n).place_of_next
  rw [Cursor.automaton_after, Cursor.haystack_after] at hplace
  rcases hplace with ⟨m', w, s, hw, hs, -, -, hnext⟩ | ⟨c', -, hnext, -⟩
  · rw [hnext, Option.some.injEq] at hanswer
    obtain rfl : m' = m := hanswer
    exact ⟨w, s, hw, hs, by rw [Cursor.after_succ', hnext]; rfl⟩
  · rw [hnext] at hanswer
    cases hanswer

theorem place_after_append (ha : a.Recognizes patterns) (p x y : Haystack)
    (hx : (occurrences patterns (p ++ x).toList)[n]? = some m)
    (hy : (occurrences patterns (p ++ y).toList)[n]? = some m) (hstop : m.stop ≤ p.size) :
    ((a.cursor (p ++ y)).after (n + 1)).place = ((a.cursor (p ++ x)).after (n + 1)).place := by
  have htake : ∀ z : Haystack, (p ++ z).toList.take m.stop = p.toList.take m.stop := fun z => by
    rw [Array.toList_append, List.take_append_of_le_length (by simpa using hstop)]
  obtain ⟨w, s, hw, hs, hplace⟩ := place_after_succ ha hx
  obtain ⟨w', s', hw', hs', hplace'⟩ := place_after_succ ha hy
  obtain rfl : w = w' := Option.some.inj (hw.symm.trans hw')
  obtain rfl : s = s' := ha.holds.label_inj hs hs'
  rw [hplace, hplace', htake, htake]

/-! ## Main result -/

/-- **How a text goes on cannot be told from what is found before.** As long as all matches end within `p`, cursors in
`p ++ x` and `p ++ y` give the same answers and stand at the same place. What is found in a text is found first when
the text goes on, and everything else ends later. -/
theorem unread_rest_unknown (hbuild : config.build patterns = .ok a) :
    (∀ (p x y : Haystack) (n : Nat),
      (∀ k < n, ∃ m, ((a.cursor (p ++ x)).after k).next.1 = some m ∧ m.stop ≤ p.size) →
      (∀ k < n, ((a.cursor (p ++ y)).after k).next.1 = ((a.cursor (p ++ x)).after k).next.1) ∧
        ((a.cursor (p ++ y)).after n).place = ((a.cursor (p ++ x)).after n).place) ∧
    ∀ h₁ h₂ : Haystack, ∃ more, a.search (h₁ ++ h₂) = a.search h₁ ++ more ∧
      ∀ m ∈ more, h₁.size < m.stop := by
  have ha := recognizes_of_build hbuild
  refine ⟨fun p x y n hwithin => ?_, fun h₁ h₂ => ?_⟩
  · have hsame : ∀ k < n, ∃ m, (occurrences patterns (p ++ x).toList)[k]? = some m ∧
        (occurrences patterns (p ++ y).toList)[k]? = some m ∧ m.stop ≤ p.size := by
      intro k hk
      obtain ⟨m, hanswer, hstop⟩ := hwithin k hk
      rw [answer_after ha] at hanswer
      rw [Array.toList_append] at hanswer ⊢
      have hp := (getElem?_occurrences_iff p.toList x.toList).mpr ⟨hanswer, by simpa using hstop⟩
      have hy := (getElem?_occurrences_iff p.toList y.toList).mp hp
      exact ⟨m, hanswer, by rw [Array.toList_append]; exact hy.1, hstop⟩
    constructor
    · intro k hk
      obtain ⟨m, hx, hy, -⟩ := hsame k hk
      rw [answer_after ha, answer_after ha, hx, hy]
    · cases n with
      | zero => rfl
      | succ n =>
        obtain ⟨m, hx, hy, hstop⟩ := hsame n (Nat.lt_succ_self n)
        exact place_after_append ha p x y hx hy hstop
  · obtain ⟨more, happend, hmore⟩ := occurrences_append patterns h₁.toList h₂.toList
    refine ⟨more, ?_, fun m hm => by simpa using hmore m hm⟩
    rw [ha.search_eq, ha.search_eq, Array.toList_append, happend]

/-- Behind "ab" the output links lead on from "ab" to "b" before another byte is read. -/
theorem unread_rest_unknown_ab :
    ∃ a, ({} : Builder).build [[97, 98], [98]] = .ok a ∧
      ((a.cursor (#[97, 98] ++ #[97])).after 1).next.1 = some ⟨1, 1, 2⟩ ∧
      ((a.cursor (#[97, 98] ++ #[98, 98])).after 1).next.1 = some ⟨1, 1, 2⟩ ∧
      ((a.cursor (#[97, 98] ++ #[98, 98])).after 2).place =
        ((a.cursor (#[97, 98] ++ #[97])).after 2).place ∧
      ∃ more, a.search (#[97, 98] ++ #[97]) = a.search #[97, 98] ++ more ∧ ∀ m ∈ more, 2 < m.stop := by
  obtain ⟨hcursors, hsearch⟩ := unread_rest_unknown
    (show ({} : Builder).build [[97, 98], [98]] = .ok _ from rfl)
  obtain ⟨hanswers, hplace⟩ := hcursors #[97, 98] #[97] #[98, 98] 2 fun k hk => by
    interval_cases k
    · exact ⟨⟨0, 2, 2⟩, rfl, Nat.le_refl 2⟩
    · exact ⟨⟨1, 1, 2⟩, rfl, Nat.le_refl 2⟩
  exact ⟨_, rfl, rfl, hanswers 1 (by decide), hplace, hsearch #[97, 98] #[97]⟩

end Automaton

end AhoCorasick
