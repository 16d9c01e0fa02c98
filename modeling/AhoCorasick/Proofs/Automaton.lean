import AhoCorasick.Build
import AhoCorasick.Proofs.Linking

/-!
# The finished automaton

Every automaton that a build answers with `Recognizes` its patterns: its trie holds their prefixes and
every state is linked. So a failure link leads to the longest proper suffix that is the label of a state
(`fail_longestProperSuffix`), the output links list the patterns that end here, longest first
(`output_lists_patterns`), and after any text the automaton is in the state of the longest suffix that
starts a pattern (`stateAfter_longestSuffix`). The states are the prefixes of the patterns, with nothing more in
the trie than their transitions, depths and patterns (`states_are_prefixes`).
-/

namespace AhoCorasick

theorem Builder.buildLogged_eq_ok {config : Builder} {patterns : List Bytes} {x : Built} :
    config.buildLogged patterns = .ok x ↔
      ∃ t, Trie.ofPatterns config patterns = .ok t ∧ x.automaton = (Linking.finish t).automaton ∧
        x.log = (Linking.finish t).records.toList.map .linked ++
          [.built x.automaton.patterns x.automaton.size config.layout] := by
  obtain ⟨a, log⟩ := x
  rw [buildLogged, bind_eq_ok]
  refine exists_congr fun t => and_congr_right' ?_
  simp only [pure, Except.pure, Except.ok.injEq, Built.mk.injEq]
  constructor
  · rintro ⟨rfl, rfl⟩
    exact ⟨rfl, rfl⟩
  · rintro ⟨rfl, rfl⟩
    exact ⟨rfl, rfl⟩

theorem Builder.build_eq_ok {config : Builder} {patterns : List Bytes} {a : Automaton} :
    config.build patterns = .ok a ↔
      ∃ t, Trie.ofPatterns config patterns = .ok t ∧ (Linking.finish t).automaton = a := by
  unfold build buildLogged
  cases Trie.ofPatterns config patterns with
  | error e => simp [bind, Except.bind, Except.map]
  | ok t => simp [bind, Except.bind, Except.map, pure, Except.pure]

namespace Automaton

/-- The trie holds the prefixes of the patterns, and every state is linked. -/
structure Recognizes (a : Automaton) (patterns : List Bytes) : Prop where
  holds : a.trie.Holds (prefixes patterns) patterns
  linked : ∀ {s w}, (prefixes patterns)[s]? = some w → w ≠ [] →
    a.Linked (prefixes patterns) patterns s w
  root_link : a.links[root]? = some {}

variable {config : Builder} {patterns : List Bytes} {a : Automaton} {s o : StateId}
  {states : List StateId} {u v w : Bytes}

theorem recognizes_of_build (h : config.build patterns = .ok a) : a.Recognizes patterns := by
  obtain ⟨t, ht, rfl⟩ := Builder.build_eq_ok.mp h
  have hholds := Trie.holds_ofPatterns ht
  obtain ⟨done, hsound⟩ := Linking.sound_finish hholds
  refine ⟨hsound.trie_eq.symm ▸ hholds, fun hs hw => hsound.linked hs ?_, ?_⟩
  · rw [List.append_nil]
    exact hsound.frontier.complete hholds.closed (List.mem_of_getElem? hs) hw
  · exact hsound.shallow hholds.root_label (Nat.zero_le 1)

theorem ofPatterns_of_build (h : config.build patterns = .ok a) : Trie.ofPatterns config patterns = .ok a.trie := by
  obtain ⟨t, ht, rfl⟩ := Builder.build_eq_ok.mp h
  obtain ⟨done, hsound⟩ := Linking.sound_finish (Trie.holds_ofPatterns ht)
  rw [ht, hsound.trie_eq]

theorem size_links_of_build (h : config.build patterns = .ok a) : a.links.size = a.size := by
  obtain ⟨t, ht, rfl⟩ := Builder.build_eq_ok.mp h
  obtain ⟨done, hsound⟩ := Linking.sound_finish (Trie.holds_ofPatterns ht)
  rw [hsound.size_eq, size, hsound.trie_eq]

theorem recognizes_of_buildLogged {x : Built} (h : config.buildLogged patterns = .ok x) :
    x.automaton.Recognizes patterns := by
  obtain ⟨t, ht, hautomaton, -⟩ := Builder.buildLogged_eq_ok.mp h
  exact recognizes_of_build (Builder.build_eq_ok.mpr ⟨t, ht, hautomaton.symm⟩)

namespace Recognizes

theorem linkedUpTo (h : a.Recognizes patterns) (n : Nat) :
    a.LinkedUpTo (prefixes patterns) patterns n := by
  refine ⟨?_, fun hs hw _ => h.linked hs hw⟩
  rw [output, h.root_link]

theorem find?_eq_some_iff (h : a.Recognizes patterns) :
    a.trie.find? w = some s ↔ (prefixes patterns)[s]? = some w :=
  h.holds.find?_eq_some_iff

theorem exists_find?_iff (h : a.Recognizes patterns) :
    (∃ s, a.trie.find? w = some s) ↔ w ∈ prefixes patterns :=
  h.holds.exists_find?_iff

theorem patterns_eq (h : a.Recognizes patterns) : a.patterns = patterns.length := by
  rw [Automaton.patterns, ← Array.length_toList, h.holds.lengths_eq, List.length_map]

/-! ## The state after a text -/

/-- After any text the automaton is in the state of the longest suffix that is a label: no byte makes
it forget a suffix that could still become a pattern. -/
theorem stateAfter_spec (h : a.Recognizes patterns) (text : Bytes) :
    ∃ v, LongestSuffix (· ∈ prefixes patterns) text v ∧
      (prefixes patterns)[a.stateAfter text]? = some v := by
  induction text using List.reverseRecOn with
  | nil =>
    exact ⟨[], longestSuffix_self h.holds.nil_mem, h.holds.root_label⟩
  | append_singleton text b ih =>
    obtain ⟨v, hv, hs⟩ := ih
    obtain ⟨x, hx, hnext⟩ := next_spec h.holds (h.linkedUpTo v.length) hs b
    refine ⟨x, hv.append_singleton (prefixClosed h.holds) hx, ?_⟩
    unfold stateAfter at hnext ⊢
    rwa [List.foldl_append]

/-! ## The chain of outputs -/

end Recognizes

/-- The states that are visited when output links are followed to their end. -/
inductive OutputChain (a : Automaton) : Option StateId → List StateId → Prop where
  | nil : OutputChain a none []
  | cons {s : StateId} {states : List StateId} :
      OutputChain a (a.output s) states → OutputChain a (some s) (s :: states)

namespace Recognizes

/-- If `x` leads to the longest reported suffix of a word, then the output links from there lead through the
others: the chain of outputs goes on from the word it has come to. -/
theorem outputChain_of_longest (h : a.Recognizes patterns) {x : Option StateId}
    (hx : ∀ o, x = some o ↔
      ∃ v, LongestSuffix (Reported patterns) w v ∧ (prefixes patterns)[o]? = some v) :
    ∃ states, OutputChain a x states ∧
      List.Forall₂ (fun s u => (prefixes patterns)[s]? = some u) states
        (reportedSuffixes patterns w) := by
  induction hn : w.length using Nat.strong_induction_on generalizing w x with
  | _ n ih =>
    rcases exists_longestSuffix_or (Reported patterns) w with ⟨v, hv⟩ | hnot
    · obtain ⟨o, ho⟩ := List.mem_iff_getElem?.mp (mem_prefixes_of_mem hv.holds.2)
      obtain ⟨b, tail, rfl⟩ := List.exists_cons_of_ne_nil hv.holds.1
      have hshort : tail.length < n := by
        have := hv.suffix.length_le
        simp only [List.length_cons] at this
        omega
      have houtput : ∀ o', a.output o = some o' ↔
          ∃ v', LongestSuffix (Reported patterns) tail v' ∧ (prefixes patterns)[o']? = some v' := by
        intro o'
        rw [(h.linked ho hv.holds.1).output]
        exact exists_congr fun v' => and_congr_left' longestProperSuffix_cons
      obtain ⟨states, hchain, hall⟩ := ih tail.length hshort houtput rfl
      rw [(hx o).mpr ⟨_, hv, ho⟩, reportedSuffixes, hv.filter_tails]
      exact ⟨o :: states, .cons hchain, .cons ho hall⟩
    · have hnone : x = none := Option.eq_none_iff_forall_ne_some.mpr fun o ho => by
        obtain ⟨v, hv, -⟩ := (hx o).mp ho
        exact hnot v hv.suffix hv.holds
      rw [hnone, reportedSuffixes, filter_tails_eq_nil hnot]
      exact ⟨[], .nil, .nil⟩

theorem outputChain_firstOutput (h : a.Recognizes patterns) (hs : (prefixes patterns)[s]? = some w) :
    ∃ states, OutputChain a (a.firstOutput s) states ∧
      List.Forall₂ (fun s u => (prefixes patterns)[s]? = some u) states
        (reportedSuffixes patterns w) :=
  h.outputChain_of_longest fun _ => firstOutput_spec h.holds (h.linkedUpTo w.length) hs

theorem output_eq_some_iff (h : a.Recognizes patterns) (hs : a.trie.find? w = some s) :
    a.output s = some o ↔
      ∃ v, LongestProperSuffix (Reported patterns) w v ∧ a.trie.find? v = some o := by
  have hlabel := h.find?_eq_some_iff.mp hs
  by_cases hw : w = []
  · subst hw
    obtain rfl := h.holds.label_inj hlabel h.holds.root_label
    constructor
    · intro ho
      rw [(h.linkedUpTo 0).root_output] at ho
      cases ho
    · rintro ⟨v, hv, -⟩
      exact absurd (List.suffix_nil.mp hv.suffix) hv.ne
  · rw [(h.linked hlabel hw).output]
    exact exists_congr fun v => and_congr_right' h.find?_eq_some_iff.symm

end Recognizes

theorem nodup_of_words (hall : List.Forall₂ (fun s u => (prefixes patterns)[s]? = some u) states
    (reportedSuffixes patterns w)) : states.Nodup := by
  have hmap : states.map (fun s => (prefixes patterns)[s]?) =
      (reportedSuffixes patterns w).map some := by
    rw [← List.forall₂_eq_eq_eq, List.forall₂_map_left_iff, List.forall₂_map_right_iff]
    exact hall
  refine List.Nodup.of_map (fun s => (prefixes patterns)[s]?) ?_
  rw [hmap]
  exact (nodup_reportedSuffixes patterns w).map (Option.some_injective _)

/-! ## Main results -/

/-- **A failure link leads to the longest proper suffix** of its state's word that is the word of a state, and every
state has exactly one word. -/
theorem fail_longestProperSuffix (h : config.build patterns = .ok a) :
    a.fail root = root ∧ (∀ s, s < a.size → ∃! w, a.trie.find? w = some s) ∧
      ∀ s w, s ≠ root → a.trie.find? w = some s →
        ∃ v, LongestProperSuffix (fun u => ∃ r, a.trie.find? u = some r) w v ∧
          a.trie.find? v = some (a.fail s) := by
  have ha := recognizes_of_build h
  refine ⟨?_, fun s hs => ?_, fun s w hroot hs => ?_⟩
  · rw [fail, ha.root_link]
  · have hlt : s < (prefixes patterns).length := by
      rw [← ha.holds.size_eq]
      exact hs
    refine ⟨(prefixes patterns)[s], ha.find?_eq_some_iff.mpr (List.getElem?_eq_getElem hlt), ?_⟩
    intro u hu
    rw [ha.find?_eq_some_iff, List.getElem?_eq_getElem hlt] at hu
    exact (Option.some.inj hu).symm
  · have hlabel := ha.find?_eq_some_iff.mp hs
    have hw : w ≠ [] := by
      rintro rfl
      exact hroot (ha.holds.label_inj hlabel ha.holds.root_label)
    obtain ⟨v, hv, hfail⟩ := (ha.linked hlabel hw).fail
    refine ⟨v, ?_, ha.find?_eq_some_iff.mpr hfail⟩
    simpa only [ha.exists_find?_iff] using hv

theorem fail_longestProperSuffix_ab :
    ∃ a, ({} : Builder).build [[97, 98], [98]] = .ok a ∧ a.fail 2 = 3 ∧
      ∃ v, LongestProperSuffix (fun u => ∃ r, a.trie.find? u = some r) [97, 98] v ∧
        a.trie.find? v = some (a.fail 2) :=
  ⟨_, rfl, rfl, (fail_longestProperSuffix (show ({} : Builder).build [[97, 98], [98]] = .ok _ from rfl)).2.2
    2 [97, 98] (by decide) rfl⟩

/-- **The output links list the patterns that end here.** The output link of a state leads to the longest proper suffix
of its word that is reported, and from the first output on the links visit the reported suffixes, each once and the
longer ones first. -/
theorem output_lists_patterns (h : config.build patterns = .ok a) (hs : a.trie.find? w = some s) :
    (∀ o, a.output s = some o ↔
        ∃ v, LongestProperSuffix (Reported patterns) w v ∧ a.trie.find? v = some o) ∧
      (a.output s = none ↔ ∀ u, u <:+ w → u ≠ w → ¬Reported patterns u) ∧
      a.output s ≠ some root ∧
      ∃ states words, OutputChain a (a.firstOutput s) states ∧ states.Nodup ∧
        List.Forall₂ (fun s u => a.trie.find? u = some s) states words ∧
        (∀ u, u ∈ words ↔ u <:+ w ∧ Reported patterns u) ∧
        words.Pairwise fun u v => v.length < u.length := by
  have ha := recognizes_of_build h
  have houtput : ∀ o, a.output s = some o ↔
      ∃ v, LongestProperSuffix (Reported patterns) w v ∧ a.trie.find? v = some o :=
    fun o => ha.output_eq_some_iff hs
  refine ⟨houtput, ?_, fun hroot => ?_, ?_⟩
  · rw [Option.eq_none_iff_forall_ne_some]
    constructor
    · intro hnone u hu hne hrep
      obtain ⟨v, hv⟩ := exists_longestProperSuffix hu hne hrep
      obtain ⟨o, ho⟩ := ha.exists_find?_iff.mpr (mem_prefixes_of_mem hv.holds.2)
      exact hnone o ((houtput o).mpr ⟨v, hv, ho⟩)
    · intro hnot o ho
      obtain ⟨v, hv, -⟩ := (houtput o).mp ho
      exact hnot v hv.suffix hv.ne hv.holds
  · obtain ⟨v, hv, ho⟩ := (houtput root).mp hroot
    have hlabel := ha.find?_eq_some_iff.mp ho
    rw [ha.holds.root_label, Option.some.injEq] at hlabel
    exact hv.holds.1 hlabel.symm
  · obtain ⟨states, hchain, hall⟩ := ha.outputChain_firstOutput (ha.find?_eq_some_iff.mp hs)
    exact ⟨states, reportedSuffixes patterns w, hchain, nodup_of_words hall,
      hall.imp fun s u hu => ha.find?_eq_some_iff.mpr hu, fun u => mem_reportedSuffixes,
      reportedSuffixes_pairwise patterns w⟩

theorem output_lists_patterns_ab :
    ∃ a, ({} : Builder).build [[97, 98], [98], []] = .ok a ∧ a.output 2 = some 3 ∧
      ∃ states words, OutputChain a (a.firstOutput 2) states ∧ states.Nodup ∧
        List.Forall₂ (fun s u => a.trie.find? u = some s) states words ∧
        (∀ u, u ∈ words ↔ u <:+ [97, 98] ∧ Reported [[97, 98], [98], []] u) ∧
        words.Pairwise fun u v => v.length < u.length :=
  ⟨_, rfl, rfl, (output_lists_patterns (w := [97, 98])
    (show ({} : Builder).build [[97, 98], [98], []] = .ok _ from rfl) rfl).2.2.2⟩

/-- **After any text the automaton is in the state of its longest suffix that starts a pattern.** -/
theorem stateAfter_longestSuffix (h : config.build patterns = .ok a) (text : Bytes) :
    ∃ v, LongestSuffix (fun u => u = [] ∨ ∃ p ∈ patterns, u <+: p) text v ∧
      a.trie.find? v = some (a.stateAfter text) := by
  have ha := recognizes_of_build h
  obtain ⟨v, hv, hs⟩ := ha.stateAfter_spec text
  refine ⟨v, ?_, ha.find?_eq_some_iff.mpr hs⟩
  simpa only [mem_prefixes] using hv

theorem stateAfter_longestSuffix_ab :
    ∃ a, ({} : Builder).build [[97, 98], [98]] = .ok a ∧ a.stateAfter [98, 97] = 1 ∧
      ∃ v, LongestSuffix (fun u => u = [] ∨ ∃ p ∈ ([[97, 98], [98]] : List Bytes), u <+: p) [98, 97] v ∧
        a.trie.find? v = some (a.stateAfter [98, 97]) :=
  ⟨_, rfl, rfl, stateAfter_longestSuffix (show ({} : Builder).build [[97, 98], [98]] = .ok _ from rfl)
    [98, 97]⟩

/-- **The states are the distinct prefixes of the patterns**, each numbered when it is first met, and every state has
the depth, the transitions and the patterns of its prefix. -/
theorem states_are_prefixes (h : config.build patterns = .ok a) :
    a.size = (prefixes patterns).length ∧ (prefixes patterns).Nodup ∧
      (prefixes patterns)[root]? = some [] ∧
      (∀ w, w ∈ prefixes patterns ↔ w = [] ∨ ∃ p ∈ patterns, w <+: p) ∧
      (∀ before w after, prefixesRead patterns = before ++ w :: after → w ∉ before →
        (prefixes patterns)[before.toFinset.card]? = some w) ∧
      (∀ s w, (prefixes patterns)[s]? = some w →
        a.trie.depth s = w.length ∧
        (∀ b t, a.trie.child? s b = some t ↔ (prefixes patterns)[t]? = some (w ++ [b])) ∧
        (∀ b t, (b, t) ∈ a.trie.children s ↔ (prefixes patterns)[t]? = some (w ++ [b])) ∧
        ((a.trie.children s).Pairwise fun e f => e.1 < f.1) ∧
        (a.endings s).toList = (idsOf patterns w).map fun i => ⟨i, w.length⟩) ∧
      a.patterns = patterns.length ∧
      ∀ i : Nat, a.patternLength? i = patterns[i]?.map List.length := by
  have ha := recognizes_of_build h
  refine ⟨ha.holds.size_eq, ha.holds.nodup, ha.holds.root_label, fun w => mem_prefixes,
    fun before w after hread hw => getElem?_prefixes_of_first hread hw, fun s w hs => ?_, ha.patterns_eq,
    fun i => ?_⟩
  · exact ⟨ha.holds.depth_eq hs, fun b t => ha.holds.child_iff hs, fun b t => ha.holds.mem_children hs,
      ha.holds.children_ascending hs, ha.holds.endings_eq hs⟩
  · rw [patternLength?, ← Array.getElem?_toList, ha.holds.lengths_eq, List.getElem?_map]

theorem states_are_prefixes_ab :
    ∃ a, ({} : Builder).build [[97, 98], [98], [], [97, 98]] = .ok a ∧
      prefixes [[97, 98], [98], [], [97, 98]] = [[], [97], [97, 98], [98]] ∧ a.size = 4 ∧
      a.trie.depth 2 = 2 ∧ (a.endings 2).toList = [⟨0, 2⟩, ⟨3, 2⟩] ∧
      ∀ b t, (b, t) ∈ a.trie.children 0 ↔
        (prefixes [[97, 98], [98], [], [97, 98]])[t]? = some ([] ++ [b]) := by
  obtain ⟨hsize, -, -, -, -, hstates, -⟩ := states_are_prefixes
    (show ({} : Builder).build [[97, 98], [98], [], [97, 98]] = .ok _ from rfl)
  obtain ⟨hdepth, -, -, -, hendings⟩ := hstates 2 [97, 98] (by decide)
  obtain ⟨-, -, hchildren, -, -⟩ := hstates 0 [] (by decide)
  exact ⟨_, rfl, by decide, hsize.trans (by decide), hdepth, hendings.trans (by decide), hchildren⟩

end Automaton

end AhoCorasick
