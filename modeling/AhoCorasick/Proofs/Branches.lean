import AhoCorasick.Proofs.Footprint
import AhoCorasick.Proofs.Refusal

/-!
# What dense tables cost

Every state but the root is the child of one state, so all tables together have one entry less than there are states
(`sum_length_branches`). A sparse table with more than 128 children takes more bytes than a dense one, but a table has
no more than four slots for each child, and so the sparse tables of an automaton take less than 32 bytes for each
state, where the dense ones take 1024.
-/

namespace AhoCorasick

variable {labels patterns : List Bytes} {u : Bytes}

namespace Trie

/-- The words that are one byte longer than a word of a list, and in the list as well. -/
def longer (labels : List Bytes) : List Bytes :=
  labels.flatMap fun w => (branches labels w).map fun b => w ++ [b]

theorem mem_longer : u ∈ longer labels ↔ ∃ w ∈ labels, ∃ b, w ++ [b] ∈ labels ∧ w ++ [b] = u := by
  simp only [longer, List.mem_flatMap, List.mem_map, mem_branches]

theorem nodup_longer (hnodup : labels.Nodup) : (longer labels).Nodup := by
  rw [longer, List.nodup_flatMap]
  refine ⟨fun w _ => ?_, hnodup.imp fun {u w} hne => ?_⟩
  · exact (nodup_branches labels w).map fun b c heq => by simpa using heq
  · intro x hu hw
    obtain ⟨b, -, rfl⟩ := List.mem_map.mp hu
    obtain ⟨c, -, heq⟩ := List.mem_map.mp hw
    exact hne (List.append_inj_left' heq rfl).symm

/-- Every word but the empty one goes on from one other word. -/
theorem perm_longer (hclosed : PrefixClosed (· ∈ labels)) (hnil : [] ∈ labels) (hnodup : labels.Nodup) :
    labels.Perm ([] :: longer labels) := by
  have hnot : [] ∉ longer labels := fun hmem => by
    obtain ⟨w, -, b, -, heq⟩ := mem_longer.mp hmem
    simp at heq
  refine (List.perm_ext_iff_of_nodup hnodup (List.nodup_cons.mpr ⟨hnot, nodup_longer hnodup⟩)).mpr fun u => ?_
  rw [List.mem_cons, mem_longer]
  constructor
  · intro hu
    rcases List.eq_nil_or_concat u with rfl | ⟨w, b, rfl⟩
    · exact Or.inl rfl
    · rw [List.concat_eq_append] at hu ⊢
      exact Or.inr ⟨w, hclosed w b hu, b, hu, rfl⟩
  · rintro (rfl | ⟨w, -, b, hmem, rfl⟩)
    · exact hnil
    · exact hmem

theorem sum_length_branches (hclosed : PrefixClosed (· ∈ labels)) (hnil : [] ∈ labels) (hnodup : labels.Nodup) :
    (labels.map fun w => (branches labels w).length).sum + 1 = labels.length := by
  have hlength := (perm_longer hclosed hnil hnodup).length_eq
  rw [List.length_cons, longer, List.length_flatMap] at hlength
  simpa using hlength.symm

theorem sum_capacity_branches_lt (hclosed : PrefixClosed (· ∈ labels)) (hnil : [] ∈ labels)
    (hnodup : labels.Nodup) :
    (labels.map fun w => capacity (branches labels w).length).sum < 4 * labels.length := by
  have hentries := sum_length_branches hclosed hnil hnodup
  have hslots : (labels.map fun w => capacity (branches labels w).length).sum ≤
      4 * (labels.map fun w => (branches labels w).length).sum := by
    rw [← List.sum_map_mul_left]
    exact List.sum_le_sum fun w _ => capacity_le _
  omega

theorem sum_wordFootprint_sparse (labels patterns : List Bytes) :
    (labels.map (wordFootprint .sparse labels patterns)).sum =
      8 * (labels.map fun w => capacity (branches labels w).length).sum +
        16 * (labels.map fun w => capacity (patterns.count w)).sum := by
  rw [← List.sum_map_mul_left, ← List.sum_map_mul_left, ← List.sum_map_add]
  rfl

theorem sum_wordFootprint_dense (labels patterns : List Bytes) :
    (labels.map (wordFootprint .dense labels patterns)).sum =
      1024 * labels.length + 16 * (labels.map fun w => capacity (patterns.count w)).sum := by
  have hconst : (labels.map fun _ => 1024).sum = 1024 * labels.length := by
    rw [List.map_const', List.sum_replicate, smul_eq_mul, Nat.mul_comm]
  rw [← hconst, ← List.sum_map_mul_left, ← List.sum_map_add]
  rfl

end Trie

/-! ## Main result -/

namespace Builder

/-- **Dense tables take more memory than sparse ones**, at least 992 bytes more for each state. -/
theorem dense_takes_more (limit : Option Nat) (patterns : List Bytes) :
    (∃ e, build ⟨.sparse, limit⟩ patterns = .error e ∧ build ⟨.dense, limit⟩ patterns = .error e) ∨
    ∃ a b, build ⟨.sparse, limit⟩ patterns = .ok a ∧ build ⟨.dense, limit⟩ patterns = .ok b ∧
      a.size = b.size ∧ a.footprint < b.footprint ∧ 992 * b.size ≤ b.footprint - a.footprint := by
  rcases (grows_build ⟨.sparse, limit⟩ patterns).agree (grows_build ⟨.dense, limit⟩ patterns) (permit_congr rfl) with
    hrefused | ⟨a, b, ha, hb⟩
  · exact Or.inl hrefused
  · have hholds := (Automaton.recognizes_of_build ha).holds
    have hsparse := Automaton.footprint_of_build ha
    have hdense := Automaton.footprint_of_build hb
    have hslots := Trie.sum_capacity_branches_lt hholds.closed hholds.nil_mem hholds.nodup
    have hasize : a.size = (prefixes patterns).length := hholds.size_eq
    have hbsize : b.size = (prefixes patterns).length := (Automaton.recognizes_of_build hb).holds.size_eq
    rw [Trie.sum_wordFootprint_sparse] at hsparse
    rw [Trie.sum_wordFootprint_dense] at hdense
    refine Or.inr ⟨a, b, ha, hb, hasize.trans hbsize.symm, ?_, ?_⟩ <;> omega

/-- The bytes cannot be compared state by state: a sparse table of 129 children takes more than a dense one. -/
example : 4 * 256 < 8 * capacity 129 := by
  rw [capacity_eq_roundedUp]
  decide

end Builder

end AhoCorasick
