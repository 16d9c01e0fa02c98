import AhoCorasick.Proofs.Links

/-!
# The occurrences at one end

The occurrences that end at an offset belong to the reported suffixes of the text before it, the longer
ones first (`occurrencesAt_eq`). All occurrences together stand in order (`occurrences_pairwise`). A pattern belongs to at
most one of the suffixes, so there are no more occurrences at one end than there are patterns
(`length_flatMap_reports_le`).
-/

namespace AhoCorasick

variable {patterns words : List Bytes} {u w : Bytes} {b : UInt8} {stop : Nat}

/-- The occurrences of a word that ends at an offset: one for each pattern that is equal to it. -/
def reports (patterns : List Bytes) (stop : Nat) (u : Bytes) : List Match :=
  (idsOf patterns u).map fun i => ⟨i, u.length, stop⟩

theorem reports_eq_nil (hu : u ∉ patterns) : reports patterns stop u = [] := by
  rw [reports, idsOf_eq_nil_iff.mpr hu, List.map_nil]

/-! ## All lengths are the lengths of suffixes -/

theorem flatMap_reportedSuffixes_cons (patterns : List Bytes) (stop : Nat) (b : UInt8) (w : Bytes) :
    (reportedSuffixes patterns (b :: w)).flatMap (reports patterns stop) =
      reports patterns stop (b :: w) ++
        (reportedSuffixes patterns w).flatMap (reports patterns stop) := by
  rw [reportedSuffixes, List.tails_cons]
  by_cases hmem : b :: w ∈ patterns
  · have hrep : Reported patterns (b :: w) := ⟨List.cons_ne_nil b w, hmem⟩
    rw [List.filter_cons_of_pos (by simpa using hrep), List.flatMap_cons, reportedSuffixes]
  · have hnot : ¬Reported patterns (b :: w) := fun hrep => hmem hrep.2
    rw [List.filter_cons_of_neg (by simpa using hnot), reports_eq_nil hmem, List.nil_append,
      reportedSuffixes]

theorem flatMap_lengths (patterns : List Bytes) (stop : Nat) (w : Bytes) :
    ((List.range' 1 w.length).reverse.flatMap fun length =>
      (idsOf patterns (w.drop (w.length - length))).map fun i => (⟨i, length, stop⟩ : Match)) =
    (reportedSuffixes patterns w).flatMap (reports patterns stop) := by
  induction w with
  | nil => rw [reportedSuffixes_nil]; rfl
  | cons b w ih =>
    have hrange : List.range' 1 (w.length + 1) = List.range' 1 w.length ++ [w.length + 1] := by
      rw [List.range'_concat, Nat.one_mul, Nat.add_comm 1]
    rw [flatMap_reportedSuffixes_cons, ← ih, List.length_cons, hrange, List.reverse_append,
      List.reverse_singleton, List.singleton_append, List.flatMap_cons, Nat.sub_self, List.drop_zero]
    congr 1
    refine List.flatMap_congr fun length hlength => ?_
    rw [List.mem_reverse, List.mem_range'_1] at hlength
    have hdrop : w.length + 1 - length = (w.length - length) + 1 := by omega
    rw [hdrop, List.drop_succ_cons]

theorem occurrencesAt_eq {text : Bytes} (hstop : stop ≤ text.length) :
    occurrencesAt patterns text stop =
      (reportedSuffixes patterns (text.take stop)).flatMap (reports patterns stop) := by
  have hlength : (text.take stop).length = stop := List.length_take_of_le hstop
  rw [← flatMap_lengths, hlength, occurrencesAt]

theorem mem_occurrences {text : Bytes} {m : Match} :
    m ∈ occurrences patterns text ↔ 1 ≤ m.length ∧ m.length ≤ m.stop ∧ m.stop ≤ text.length ∧
      patterns[m.pattern]? = some ((text.take m.stop).drop (m.stop - m.length)) := by
  obtain ⟨i, length, stop⟩ := m
  simp only [occurrences, occurrencesAt, List.mem_flatMap, List.mem_reverse, List.mem_range'_1,
    List.mem_map, mem_idsOf, Match.mk.injEq]
  constructor
  · rintro ⟨stop, hstop, length, hlength, i, hi, rfl, rfl, rfl⟩
    exact ⟨hlength.1, by omega, by omega, hi⟩
  · rintro ⟨hpos, hlength, hstop, hi⟩
    exact ⟨stop, by omega, length, by omega, i, hi, rfl, rfl, rfl⟩

/-! ## The order of occurrences -/

/-- A match ends before another one, or where it ends and is longer, or is as long and comes from an earlier pattern. -/
def Match.Before (m m' : Match) : Prop :=
  m.stop < m'.stop ∨ m.stop = m'.stop ∧
    (m'.length < m.length ∨ m.length = m'.length ∧ m.pattern < m'.pattern)

theorem idsOf_ascending (patterns : List Bytes) (w : Bytes) : (idsOf patterns w).Pairwise (· < ·) :=
  List.pairwise_lt_range.filter _

theorem occurrencesAt_pairwise (patterns : List Bytes) (text : Bytes) (stop : Nat) :
    (occurrencesAt patterns text stop).Pairwise Match.Before := by
  have hlengths : (List.range' 1 stop).Pairwise (· < ·) := List.pairwise_lt_range'
  rw [occurrencesAt, List.pairwise_flatMap]
  refine ⟨fun length _ => ?_, ?_⟩
  · rw [List.pairwise_map]
    exact (idsOf_ascending _ _).imp fun hlt => Or.inr ⟨rfl, Or.inr ⟨rfl, hlt⟩⟩
  · rw [List.pairwise_reverse]
    refine hlengths.imp fun hlt m hm m' hm' => ?_
    obtain ⟨i, -, rfl⟩ := List.mem_map.mp hm
    obtain ⟨i', -, rfl⟩ := List.mem_map.mp hm'
    exact Or.inr ⟨rfl, Or.inl hlt⟩

theorem stop_of_mem_occurrencesAt {text : Bytes} {m : Match} (hm : m ∈ occurrencesAt patterns text stop) :
    m.stop = stop := by
  simp only [occurrencesAt, List.mem_flatMap, List.mem_map] at hm
  obtain ⟨length, -, i, -, rfl⟩ := hm
  rfl

theorem occurrences_pairwise (patterns : List Bytes) (text : Bytes) :
    (occurrences patterns text).Pairwise Match.Before := by
  have hstops : (List.range' 1 text.length).Pairwise (· < ·) := List.pairwise_lt_range'
  rw [occurrences, List.pairwise_flatMap]
  refine ⟨fun stop _ => occurrencesAt_pairwise patterns text stop, hstops.imp fun hlt m hm m' hm' => Or.inl ?_⟩
  rw [stop_of_mem_occurrencesAt hm, stop_of_mem_occurrencesAt hm']
  exact hlt

/-! ## The number of occurrences -/

theorem nodup_idsOf (patterns : List Bytes) (u : Bytes) : (idsOf patterns u).Nodup :=
  List.nodup_range.filter _

theorem nodup_flatMap_idsOf (hwords : words.Nodup) : (words.flatMap (idsOf patterns)).Nodup := by
  rw [List.nodup_flatMap]
  refine ⟨fun u _ => nodup_idsOf patterns u, hwords.imp fun hne => ?_⟩
  intro i hu hv
  rw [mem_idsOf] at hu hv
  exact hne (Option.some.inj (hu.symm.trans hv))

/-- A pattern is equal to one word at most. -/
theorem length_flatMap_reports_le (patterns : List Bytes) (hwords : words.Nodup) (stop : Nat) :
    (words.flatMap (reports patterns stop)).length ≤ patterns.length := by
  have hids : (words.flatMap (reports patterns stop)).length =
      (words.flatMap (idsOf patterns)).length := by
    simp [List.length_flatMap, reports]
  have hsubset : words.flatMap (idsOf patterns) ⊆ List.range patterns.length := by
    intro i hi
    obtain ⟨u, -, hu⟩ := List.mem_flatMap.mp hi
    exact List.mem_range.mpr (List.getElem?_eq_some_iff.mp (mem_idsOf.mp hu)).1
  rw [hids, ← List.length_range (n := patterns.length)]
  exact ((nodup_flatMap_idsOf hwords).subperm hsubset).length_le

end AhoCorasick
