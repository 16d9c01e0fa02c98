import AhoCorasick.Occurrences
import Mathlib

/-!
# The list of distinct prefixes

One more word at the end of a list adds one more distinct word, at the end, unless it occurred before
(`eraseDups_concat`). So the distinct prefixes grow word by word as patterns are read, and a word is among
them exactly if it is empty or starts a pattern (`mem_prefixes`). They get their ids as they are first met: the id of a
prefix is the number of different prefixes met before it (`getElem?_prefixes_of_first`).
-/

namespace AhoCorasick

variable {words before after patterns : List Bytes} {u w : Bytes}

theorem eraseDups_concat (words : List Bytes) (w : Bytes) :
    (words ++ [w]).eraseDups = if w ∈ words then words.eraseDups else words.eraseDups ++ [w] := by
  by_cases hw : w ∈ words
  · rw [if_pos hw]
    simp [List.eraseDups_append, List.removeAll, hw]
  · rw [if_neg hw]
    simp [List.eraseDups_append, List.removeAll, hw, List.eraseDups_cons]

/-! ## The prefixes of one word -/

@[simp] theorem prefixesOf_nil : prefixesOf [] = [[]] := rfl

theorem prefixesOf_concat (w : Bytes) (b : UInt8) :
    prefixesOf (w ++ [b]) = prefixesOf w ++ [w ++ [b]] := by
  rw [prefixesOf, List.length_append, List.length_singleton, List.range_succ, List.map_append]
  congr 1
  · refine List.map_congr_left fun k hk => ?_
    exact List.take_append_of_le_length (Nat.le_of_lt_succ (List.mem_range.mp hk))
  · rw [List.map_singleton, List.take_of_length_le (by simp)]

theorem mem_prefixesOf : u ∈ prefixesOf w ↔ u <+: w := by
  induction w using List.reverseRecOn with
  | nil => simp
  | append_singleton w b ih =>
    rw [prefixesOf_concat, List.mem_append, List.mem_singleton, ih, List.prefix_concat_iff, or_comm]

/-! ## The prefixes of a list of patterns -/

/-- All prefixes in the order in which they are read, those that were read before included. -/
def prefixesRead (patterns : List Bytes) : List Bytes := [] :: patterns.flatMap prefixesOf

theorem prefixes_eq (patterns : List Bytes) : prefixes patterns = (prefixesRead patterns).eraseDups := rfl

theorem prefixesRead_concat (patterns : List Bytes) (w : Bytes) :
    prefixesRead (patterns ++ [w]) = prefixesRead patterns ++ prefixesOf w := by
  simp [prefixesRead]

theorem mem_prefixes : u ∈ prefixes patterns ↔ u = [] ∨ ∃ p ∈ patterns, u <+: p := by
  simp only [prefixes, List.mem_eraseDups, List.mem_cons, List.mem_flatMap, mem_prefixesOf]

theorem mem_prefixes_of_mem (hw : w ∈ patterns) : w ∈ prefixes patterns :=
  mem_prefixes.mpr (Or.inr ⟨w, hw, List.prefix_refl w⟩)

/-! ## Ids by first occurrence -/

theorem nodup_eraseDups (words : List Bytes) : words.eraseDups.Nodup := by
  induction words using List.reverseRecOn with
  | nil => exact List.nodup_nil
  | append_singleton words w ih =>
    rw [eraseDups_concat]
    split_ifs with hw
    · exact ih
    · rw [← List.concat_eq_append]
      exact (List.nodup_concat _ _).mpr ⟨fun hmem => hw (List.mem_eraseDups.mp hmem), ih⟩

theorem length_eraseDups (words : List Bytes) : words.eraseDups.length = words.toFinset.card := by
  rw [← List.toFinset_card_of_nodup (nodup_eraseDups words)]
  congr 1
  ext w
  rw [List.mem_toFinset, List.mem_toFinset, List.mem_eraseDups]

theorem getElem?_eraseDups_of_first (hw : w ∉ before) :
    (before ++ w :: after).eraseDups[before.toFinset.card]? = some w := by
  have hkeep : (w :: after).removeAll before = w :: after.removeAll before := by
    simp [List.removeAll, hw]
  rw [List.eraseDups_append, hkeep, List.eraseDups_cons, ← length_eraseDups,
    List.getElem?_append_right (Nat.le_refl _), Nat.sub_self, List.getElem?_cons_zero]

theorem getElem?_prefixes_of_first
    (hread : prefixesRead patterns = before ++ w :: after) (hw : w ∉ before) :
    (prefixes patterns)[before.toFinset.card]? = some w := by
  rw [prefixes_eq, hread]
  exact getElem?_eraseDups_of_first hw

end AhoCorasick
