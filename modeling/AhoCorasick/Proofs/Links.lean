import AhoCorasick.Linking
import AhoCorasick.Proofs.Suffix
import AhoCorasick.Proofs.Trie

/-!
# Following links

A state is `Linked` if its failure link leads to the longest proper suffix of its word that is a label,
and its output link to the longest one that is a pattern. What `next` and `firstOutput` answer at a state
depends on the links of states that are not deeper: there `next` finds the longest suffix of the word
read so far (`next_spec`) and `firstOutput` the longest pattern that ends here (`firstOutput_spec`). Both
are stated for automata that are linked up to some depth, since they also serve while links are made.
-/

namespace AhoCorasick

/-- A word that is reported: a pattern that is not empty. -/
def Reported (patterns : List Bytes) (w : Bytes) : Prop := w ≠ [] ∧ w ∈ patterns

instance (patterns : List Bytes) : DecidablePred (Reported patterns) := fun w =>
  inferInstanceAs (Decidable (w ≠ [] ∧ w ∈ patterns))

/-- The suffixes of a word that are reported, the longest one first. -/
def reportedSuffixes (patterns : List Bytes) (w : Bytes) : List Bytes :=
  w.tails.filter (Reported patterns ·)

theorem mem_reportedSuffixes {patterns : List Bytes} {u w : Bytes} :
    u ∈ reportedSuffixes patterns w ↔ u <:+ w ∧ Reported patterns u := by
  rw [reportedSuffixes, List.mem_filter, List.mem_tails, decide_eq_true_eq]

theorem reportedSuffixes_nil (patterns : List Bytes) : reportedSuffixes patterns [] = [] := by
  simp [reportedSuffixes, Reported]

theorem reportedSuffixes_pairwise (patterns : List Bytes) (w : Bytes) :
    (reportedSuffixes patterns w).Pairwise fun u v => v.length < u.length :=
  (tails_pairwise_length w).filter _

theorem nodup_reportedSuffixes (patterns : List Bytes) (w : Bytes) :
    (reportedSuffixes patterns w).Nodup :=
  (reportedSuffixes_pairwise patterns w).imp fun hlt => by
    rintro rfl
    exact Nat.lt_irrefl _ hlt

namespace Automaton

variable {a : Automaton} {labels patterns : List Bytes} {s o : StateId} {b : UInt8} {v w : Bytes}
  {n : Nat}

/-- The links of the state `s` of the word `w` lead where they should. -/
structure Linked (a : Automaton) (labels patterns : List Bytes) (s : StateId) (w : Bytes) : Prop where
  fail : ∃ v, LongestProperSuffix (· ∈ labels) w v ∧ labels[a.fail s]? = some v
  output : ∀ {o}, a.output s = some o ↔
    ∃ v, LongestProperSuffix (Reported patterns) w v ∧ labels[o]? = some v

/-- The root has no output link, and the states up to depth `n` are linked. -/
structure LinkedUpTo (a : Automaton) (labels patterns : List Bytes) (n : Nat) : Prop where
  root_output : a.output root = none
  linked : ∀ {s w}, labels[s]? = some w → w ≠ [] → w.length ≤ n → a.Linked labels patterns s w

theorem LinkedUpTo.mono {m : Nat} (h : a.LinkedUpTo labels patterns n) (hm : m ≤ n) :
    a.LinkedUpTo labels patterns m :=
  ⟨h.root_output, fun hs hw hle => h.linked hs hw (Nat.le_trans hle hm)⟩

theorem prefixClosed (h : a.trie.Holds labels patterns) : PrefixClosed (· ∈ labels) := h.closed

/-! ## The next state -/

theorem run_fallBack (h : a.trie.Holds labels patterns) (hlinked : a.LinkedUpTo labels patterns n)
    (b : UInt8) :
    ∀ (bound : Nat) (s : StateId) (v : Bytes), v.length < bound → v.length ≤ n →
      labels[s]? = some v →
      ∃ t x, Round.run (a.fallBack b) bound s = some t ∧ LongestSuffix (· ∈ labels) (v ++ [b]) x ∧
        labels[t]? = some x := by
  intro bound
  induction bound with
  | zero => intro s v hlt; omega
  | succ bound ih =>
    intro s v hlt hle hs
    cases hchild : a.trie.child? s b with
    | some t =>
      have ht := (h.child_iff hs).mp hchild
      refine ⟨t, v ++ [b], ?_, longestSuffix_self (List.mem_of_getElem? ht), ht⟩
      simp [Round.run, fallBack, hchild]
    | none =>
      have hnot : v ++ [b] ∉ labels := h.not_mem hs hchild
      by_cases hv : v = []
      · subst hv
        obtain rfl := h.label_inj hs h.root_label
        refine ⟨root, [], by simp [Round.run, fallBack, hchild], ?_, h.root_label⟩
        have hnil : LongestProperSuffix (· ∈ labels) [b] [] :=
          longestProperSuffix_cons.mpr (longestSuffix_self h.nil_mem)
        exact hnil.longestSuffix hnot
      · obtain ⟨v', hv', hfail⟩ := (hlinked.linked hs hv hle).fail
        have hshort := hv'.length_lt
        obtain ⟨t, x, hrun, hx, ht⟩ := ih (a.fail s) v' (by omega) (by omega) hfail
        refine ⟨t, x, ?_, (hv'.append_singleton (prefixClosed h) hx).longestSuffix hnot, ht⟩
        simpa [Round.run, fallBack, hchild, h.ne_root hs hv] using hrun

theorem next_spec (h : a.trie.Holds labels patterns) (hlinked : a.LinkedUpTo labels patterns v.length)
    (hs : labels[s]? = some v) (b : UInt8) :
    ∃ x, LongestSuffix (· ∈ labels) (v ++ [b]) x ∧ labels[a.next s b]? = some x := by
  obtain ⟨t, x, hrun, hx, ht⟩ := run_fallBack h hlinked b (v.length + 1) s v (by omega) (by omega) hs
  have hnext : a.next s b = t := by rw [next, h.depth_eq hs, hrun, Option.getD_some]
  exact ⟨x, hx, hnext ▸ ht⟩

/-! ## The first output -/

theorem size_endings_ne_zero_iff (h : a.trie.Holds labels patterns) (hs : labels[s]? = some w) :
    (a.endings s).size ≠ 0 ↔ w ∈ patterns := by
  rw [← Array.length_toList, endings, h.endings_eq hs, List.length_map, ne_eq,
    List.length_eq_zero_iff]
  exact idsOf_ne_nil_iff

theorem firstOutput_spec (h : a.trie.Holds labels patterns)
    (hlinked : a.LinkedUpTo labels patterns w.length) (hs : labels[s]? = some w) :
    a.firstOutput s = some o ↔
      ∃ v, LongestSuffix (Reported patterns) w v ∧ labels[o]? = some v := by
  by_cases hw : w = []
  · subst hw
    obtain rfl := h.label_inj hs h.root_label
    have hnone : ¬∃ v, LongestSuffix (Reported patterns) [] v ∧ labels[o]? = some v := by
      rintro ⟨v, hv, -⟩
      exact hv.holds.1 (List.suffix_nil.mp hv.suffix)
    simp [firstOutput, hlinked.root_output, hnone]
  · have hroot : s ≠ root := h.ne_root hs hw
    have hsize := size_endings_ne_zero_iff h hs
    by_cases hpattern : w ∈ patterns
    · rw [firstOutput, if_pos ⟨hroot, hsize.mpr hpattern⟩, Option.some.injEq]
      have hself : LongestSuffix (Reported patterns) w w := longestSuffix_self ⟨hw, hpattern⟩
      constructor
      · rintro rfl
        exact ⟨w, hself, hs⟩
      · rintro ⟨v, hv, ho⟩
        rw [hv.unique hself] at ho
        exact h.label_inj hs ho
    · rw [firstOutput, if_neg fun hboth => hpattern (hsize.mp hboth.2),
        (hlinked.linked hs hw (Nat.le_refl _)).output]
      exact exists_congr fun v =>
        and_congr_left' (longestSuffix_iff_proper fun hrep => hpattern hrep.2).symm

end Automaton

namespace Linking

variable {a : Automaton} {labels patterns : List Bytes} {s child : StateId} {b : UInt8} {w : Bytes}

/-! ## The links of a child -/

theorem linkOf_spec (h : a.trie.Holds labels patterns)
    (hlinked : a.LinkedUpTo labels patterns w.length) (hs : labels[s]? = some w) (hw : w ≠ []) :
    (∃ x, LongestProperSuffix (· ∈ labels) (w ++ [b]) x ∧ labels[(linkOf a s b).fail]? = some x) ∧
      ∀ o, (linkOf a s b).output = some o ↔
        ∃ v, LongestProperSuffix (Reported patterns) (w ++ [b]) v ∧ labels[o]? = some v := by
  obtain ⟨v, hv, hfail⟩ := (hlinked.linked hs hw (Nat.le_refl _)).fail
  have hshort := hv.length_lt
  obtain ⟨x, hx, hnext⟩ := Automaton.next_spec h (hlinked.mono hshort.le) hfail b
  have hproper := hv.append_singleton (Automaton.prefixClosed h) hx
  have hle : x.length ≤ w.length := by
    have := hx.suffix.length_le
    rw [List.length_append, List.length_singleton] at this
    omega
  refine ⟨⟨x, hproper, hnext⟩, fun o => ?_⟩
  have houtput : (linkOf a s b).output = a.firstOutput (a.next (a.fail s) b) := rfl
  rw [houtput, Automaton.firstOutput_spec h (hlinked.mono hle) hnext]
  exact exists_congr fun u => and_congr_left' (hproper.longestSuffix_iff fun u hu =>
    h.pattern_mem u hu.2)

end Linking

end AhoCorasick
