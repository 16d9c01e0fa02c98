import AhoCorasick.Proofs.Log
import AhoCorasick.Proofs.Stopping

/-!
# Linking takes linear time

The search for the failure link of `w ++ [b]` starts at the longest proper suffix of `w` and ends one byte behind a
word that it has come to, and each link that it follows makes this word shorter. So it follows no more links than its
end lies below the longest possible one (`Linking.Midway.depth_le_add_slack`). Along the prefixes of a pattern the
slacks add up to less than the length of the pattern (`sum_slack_add_failDepth_le`). The pass puts down each prefix of
two bytes or more once, so a pattern that it is a prefix of can pay for it, though the pass does not go along the
patterns (`sum_slack_le`).
-/

namespace AhoCorasick

variable {labels patterns words : List Bytes} {u v w : Bytes} {b : UInt8}

/-! ## The slack of a word -/

/-- The number of bytes of the longest proper suffix that is in a list. -/
def failDepth (labels : List Bytes) (w : Bytes) : Nat := ((w.tails.tail.find? labels.contains).getD []).length

/-- How much shorter the longest proper suffix is than that of the word without its last byte lets it be. -/
def slack (labels : List Bytes) (w : Bytes) : Nat := failDepth labels w.dropLast + 1 - failDepth labels w

theorem slack_append_singleton (labels : List Bytes) (w : Bytes) (b : UInt8) :
    slack labels (w ++ [b]) = failDepth labels w + 1 - failDepth labels (w ++ [b]) := by
  rw [slack, List.dropLast_concat]

theorem LongestProperSuffix.failDepth_eq (h : LongestProperSuffix (· ∈ labels) w v) :
    failDepth labels w = v.length := by
  cases w with
  | nil => exact absurd (List.suffix_nil.mp h.suffix) h.ne
  | cons c w =>
    have hcontains : labels.contains = fun u => decide (u ∈ labels) := funext fun u => List.contains_eq_mem u labels
    have hfirst := (longestProperSuffix_cons.mp h).filter_tails
    rw [failDepth, List.tails_cons, List.tail_cons, hcontains, ← List.head?_filter, hfirst, List.head?_cons,
      Option.getD_some]

theorem failDepth_singleton (labels : List Bytes) (b : UInt8) : failDepth labels [b] = 0 := by
  by_cases h : [] ∈ labels <;> simp [failDepth, h]

theorem failDepth_append_singleton_le (hclosed : PrefixClosed (· ∈ labels)) (hnil : [] ∈ labels) (hw : w ≠ []) :
    failDepth labels (w ++ [b]) ≤ failDepth labels w + 1 := by
  obtain ⟨v, hv⟩ := exists_longestProperSuffix (P := (· ∈ labels)) List.nil_suffix hw.symm hnil
  obtain ⟨x, hx⟩ := exists_longestProperSuffix (P := (· ∈ labels)) (w := w ++ [b]) List.nil_suffix (by simp) hnil
  rw [hv.failDepth_eq, hx.failDepth_eq]
  rcases suffix_append_singleton_iff.mp hx.suffix with rfl | ⟨y, hy, rfl⟩
  · exact Nat.zero_le _
  · have hne : y ≠ w := by
      rintro rfl
      exact hx.ne rfl
    have hle := hv.longest y hy hne (hclosed y b hx.holds)
    rw [List.length_append, List.length_singleton]
    omega

/-! ## Along a pattern -/

/-- The prefixes of a word that have two bytes or more, by ascending length. -/
def longPrefixes (w : Bytes) : List Bytes := (prefixesOf w).filter (2 ≤ ·.length)

theorem longPrefixes_concat (hw : w ≠ []) (b : UInt8) :
    longPrefixes (w ++ [b]) = longPrefixes w ++ [w ++ [b]] := by
  have hlength : 2 ≤ (w ++ [b]).length := by
    have := List.length_pos_iff.mpr hw
    rw [List.length_append, List.length_singleton]
    omega
  rw [longPrefixes, prefixesOf_concat, List.filter_append, List.filter_singleton, decide_eq_true hlength]
  rfl

theorem sum_slack_add_failDepth_le (hclosed : PrefixClosed (· ∈ labels)) (hnil : [] ∈ labels) (hw : w ≠ []) :
    ((longPrefixes w).map (slack labels)).sum + failDepth labels w ≤ w.length - 1 := by
  induction w using List.reverseRecOn with
  | nil => exact absurd rfl hw
  | append_singleton w b ih =>
    by_cases hempty : w = []
    · subst hempty
      rw [List.nil_append, failDepth_singleton]
      exact Nat.le_refl 0
    · have hpath := ih hempty
      have hstep : failDepth labels (w ++ [b]) ≤ failDepth labels w + 1 :=
        failDepth_append_singleton_le hclosed hnil hempty
      have hslack := slack_append_singleton labels w b
      have hlength := List.length_pos_iff.mpr hempty
      rw [longPrefixes_concat hempty, List.map_append, List.sum_append, List.map_singleton, List.sum_singleton,
        List.length_append, List.length_singleton]
      omega

/-! ## Over all patterns -/

theorem sum_map_le_of_subset {xs ys : List Bytes} (hnodup : xs.Nodup) (hsubset : xs ⊆ ys) (cost : Bytes → Nat) :
    (xs.map cost).sum ≤ (ys.map cost).sum := by
  obtain ⟨zs, hperm, hsublist⟩ := hnodup.subperm hsubset
  calc (xs.map cost).sum = (zs.map cost).sum := (hperm.map cost).sum_nat.symm
    _ ≤ (ys.map cost).sum := (hsublist.map cost).sum_le_sum fun _ _ => Nat.zero_le _

theorem mem_longPrefixes : u ∈ longPrefixes w ↔ u <+: w ∧ 2 ≤ u.length := by
  rw [longPrefixes, List.mem_filter, mem_prefixesOf, decide_eq_true_eq]

/-- Words that begin patterns are paid for by these patterns, as long as no word is to be paid for twice. -/
theorem sum_slack_le (hclosed : PrefixClosed (· ∈ labels)) (hnil : [] ∈ labels) (hnodup : words.Nodup)
    (hwords : ∀ w ∈ words, w ∈ prefixes patterns ∧ 2 ≤ w.length) :
    (words.map (slack labels)).sum ≤ ((patterns.filter (· ≠ [])).map fun p => p.length - 1).sum := by
  have hsubset : words ⊆ (patterns.filter (· ≠ [])).flatMap longPrefixes := by
    intro w hw
    obtain ⟨hmem, hlength⟩ := hwords w hw
    rcases mem_prefixes.mp hmem with rfl | ⟨p, hp, hstarts⟩
    · simp at hlength
    · have hne : p ≠ [] := by
        rintro rfl
        rw [List.prefix_nil.mp hstarts] at hlength
        simp at hlength
      have hpattern : p ∈ patterns.filter (· ≠ []) := List.mem_filter.mpr ⟨hp, decide_eq_true hne⟩
      exact List.mem_flatMap.mpr ⟨p, hpattern, mem_longPrefixes.mpr ⟨hstarts, hlength⟩⟩
  calc (words.map (slack labels)).sum
      ≤ (((patterns.filter (· ≠ [])).flatMap longPrefixes).map (slack labels)).sum :=
        sum_map_le_of_subset hnodup hsubset _
    _ = ((patterns.filter (· ≠ [])).map fun p => ((longPrefixes p).map (slack labels)).sum).sum := by
        rw [List.map_flatMap, List.flatMap_def, List.sum_flatten, List.map_map]
        rfl
    _ ≤ ((patterns.filter (· ≠ [])).map fun p => p.length - 1).sum := by
        refine List.sum_le_sum fun p hp => ?_
        have hne : p ≠ [] := of_decide_eq_true (List.mem_filter.mp hp).2
        have hpath := sum_slack_add_failDepth_le hclosed hnil hne
        omega

namespace Linking

variable {t : Trie} {l : Linking} {m m' : Moment} {n : Nat} {done wait recorded : List Bytes}

/-! ## Within the pass -/

/-- The slacks of the words whose states have been put down. -/
def spent (labels : List Bytes) (l : Linking) : Nat :=
  (l.logged.map fun s => (labels[s]?).elim 0 (slack labels)).sum

theorem spent_write {c : StateId} (hc : labels[c]? = some w) (link : Link) :
    (l.write c link).spent labels = l.spent labels + slack labels w := by
  have hlogged : (l.write c link).logged = l.logged ++ [c] := by simp [logged, write]
  rw [spent, hlogged, List.map_append, List.sum_append, List.map_singleton, List.sum_singleton, hc]
  rfl

theorem Recorded.spent_eq (h : Recorded t labels l done wait recorded) :
    l.spent labels = (recorded.map (slack labels)).sum := by
  have hmap : l.logged.map (fun s => (labels[s]?).elim 0 (slack labels)) =
      (l.logged.map fun s => labels[s]?).map fun o => o.elim 0 (slack labels) := by
    rw [List.map_map]
    rfl
  rw [spent, hmap, h.label_eq, List.map_map]
  rfl

/-- What the links that have been followed are paid with: the slacks of the words whose states have been put down,
and within a search the depth that has been lost since its start. -/
def Moment.Within (labels : List Bytes) (m : Moment) (n : Nat) : Prop :=
  match m.task with
  | .search parent _ _ r _ =>
    n + m.progress.automaton.trie.depth r ≤
      m.progress.spent labels + m.progress.automaton.trie.depth (m.progress.automaton.fail parent)
  | _ => n ≤ m.progress.spent labels

/-- A search that is over has lost no more depth than the slack of the word that it was for. -/
theorem Midway.depth_le_add_slack {c s r fail : StateId} {left : List (UInt8 × StateId)}
    (h : Midway t labels patterns l s w ((b, c) :: left)) (ht : t.Holds labels patterns)
    (hr : Round.Reaches (l.automaton.fallBack b) (l.automaton.fail s) r)
    (hdone : l.automaton.fallBack b r = .done fail) :
    l.automaton.trie.depth (l.automaton.fail s) ≤ l.automaton.trie.depth r + slack labels (w ++ [b]) := by
  have hholds := h.holds ht
  obtain ⟨v, hv, hfail, hlinked⟩ := h.exists_label_fail
  obtain ⟨x, hx, hnext⟩ := h.exists_label_of_done ht hr hdone
  obtain ⟨u, hu, -⟩ := Automaton.exists_label_of_reaches hholds hlinked hfail (Nat.le_refl _) hr
  have hstart : l.automaton.trie.depth (l.automaton.fail s) = failDepth labels w := by
    rw [hholds.depth_eq hfail, hv.failDepth_eq]
  have hend : failDepth labels (w ++ [b]) ≤ l.automaton.trie.depth r + 1 := by
    rw [hx.failDepth_eq, ← hholds.depth_eq hnext]
    exact Automaton.depth_le_of_fallBack hholds hu hdone
  rw [hstart, slack_append_singleton]
  omega

theorem Moment.Sound.within_step (ht : t.Holds labels patterns) (hm : Sound t labels patterns m)
    (hle : m.Within labels n) (hstep : Step m m') : m'.Within labels (n + m.links) := by
  cases hstep with
  | start | enqueue | turn | leave => exact hle
  -- when a search begins, no depth has been lost
  | search => exact Nat.add_le_add_right hle _
  | @fallBack l s c r r' b left hfall =>
    obtain ⟨u, hu, hlinked⟩ := hm.exists_label_search ht
    have hholds : l.automaton.trie.Holds labels patterns := (hm.trie_eq ht).symm ▸ ht
    have hless := Automaton.depth_lt_of_fallBack hholds hlinked hu hfall
    have hlinks : (l.automaton.fallBack b r).repeats = 1 := by rw [hfall, Round.repeats]
    change n + l.automaton.trie.depth r ≤
      l.spent labels + l.automaton.trie.depth (l.automaton.fail s) at hle
    show n + (l.automaton.fallBack b r).repeats + l.automaton.trie.depth r' ≤
      l.spent labels + l.automaton.trie.depth (l.automaton.fail s)
    omega
  | @write _ s c r fail b left hfall =>
    cases hm with
    | @search _ l _ _ _ _ w _ _ _ _ _ _ h hsplit hl hr =>
      have hmidway := h.midway ht hsplit hl
      have hlost : l.automaton.trie.depth (l.automaton.fail s) ≤
          l.automaton.trie.depth r + slack labels (w ++ [b]) := hmidway.depth_le_add_slack ht hr hfall
      have hlinks : ((l.push c).automaton.fallBack b r).repeats = 0 := by rw [hfall, Round.repeats]
      have hspent : ((l.push c).write c ⟨fail, l.automaton.firstOutput fail⟩).spent labels =
          l.spent labels + slack labels (w ++ [b]) := spent_write (hmidway.left_label _ List.mem_cons_self) _
      change n + l.automaton.trie.depth r ≤
        l.spent labels + l.automaton.trie.depth (l.automaton.fail s) at hle
      show n + ((l.push c).automaton.fallBack b r).repeats ≤
        ((l.push c).write c ⟨fail, l.automaton.firstOutput fail⟩).spent labels
      omega

theorem Moment.within_of_reaches (ht : t.Holds labels patterns)
    (hreach : Round.Reaches (Round.counted round links) (.start t, 0) (m, n)) : m.Within labels n := by
  refine (hreach.keeps_counted (P := fun m n => Sound t labels patterns m ∧ m.Within labels n) ?_
    ⟨.start t labels patterns, Nat.le_refl 0⟩).2
  rintro m m' n ⟨hm, hle⟩ hround
  have hstep := round_eq_again_iff.mp hround
  exact ⟨hm.step ht hstep, hm.within_step ht hle hstep⟩

/-! ## Main result -/

/-- **Linking takes linear time.** The links that are followed in the whole pass are no more than the bytes of the
patterns, without the first byte of each. -/
theorem links_followed_le {config : Builder} (h : Trie.ofPatterns config patterns = .ok t) :
    ∃ k n, Round.Stops (Round.counted Moment.round Moment.links) k (.start t, 0) (finish t, n) ∧
      n ≤ ((patterns.filter (· ≠ [])).map fun w => w.length - 1).sum := by
  have ht := Trie.holds_ofPatterns h
  obtain ⟨k, hstops⟩ := Moment.stops_start ht
  obtain ⟨n, hcounted⟩ := hstops.counted Moment.links 0
  refine ⟨k, n, hcounted, ?_⟩
  obtain ⟨⟨m, n⟩, hreach, hdone⟩ := hcounted.exists_last
  obtain ⟨hround, rfl⟩ := Round.counted_eq_done_iff.mp hdone
  have hle : m.Within (prefixes patterns) n := Moment.within_of_reaches ht hreach
  obtain rfl := Moment.eq_of_round_done hround
  obtain ⟨done, recorded, hsound, hrecorded⟩ := recorded_finish ht
  have hnodup : recorded.Nodup := (hrecorded.pairwise hsound.frontier).imp Before.ne
  calc n + 0 ≤ (finish t).spent (prefixes patterns) := hle
    _ = (recorded.map (slack (prefixes patterns))).sum := hrecorded.spent_eq
    _ ≤ ((patterns.filter (· ≠ [])).map fun w => w.length - 1).sum :=
      sum_slack_le ht.closed (List.mem_of_getElem? ht.root_label) hnodup fun w hw =>
        (mem_recorded ht hsound.frontier hrecorded).mp hw

/-- For "aab" one link is followed: from "a" to the root, in the search for the failure link of "aab". -/
theorem links_followed_le_aab :
    ∃ t k n, Trie.ofPatterns {} [[97, 97, 98], []] = .ok t ∧
      Round.Stops (Round.counted Moment.round Moment.links) k (.start t, 0) (finish t, n) ∧ n ≤ 2 ∧ n = 1 := by
  have ht : Trie.ofPatterns {} [[97, 97, 98], []] = .ok ⟨#[⟨.sparse #[(97, 1)], #[⟨1, 0⟩], 0⟩,
    ⟨.sparse #[(97, 2)], #[], 1⟩, ⟨.sparse #[(98, 3)], #[], 2⟩, ⟨.sparse #[], #[⟨0, 3⟩], 3⟩], #[3, 0]⟩ := rfl
  obtain ⟨k, n, hstops, hle⟩ := links_followed_le ht
  refine ⟨_, k, n, ht, hstops, hle, ?_⟩
  have hone : (_, n) = (_, 1) := hstops.unique (.again rfl (.again rfl (.again rfl (.again rfl (.again rfl
    (.again rfl (.again rfl (.again rfl (.again rfl (.again rfl (.again rfl (.again rfl (.again rfl
      (.done rfl))))))))))))))
  exact congrArg Prod.snd hone

end Linking

end AhoCorasick
