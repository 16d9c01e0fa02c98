import AhoCorasick.Json.Basic
import Mathlib

/-!
# The fields of an object

An object is made field by field. Each field goes to its place by name, or takes the place of one of its name, so
the names ascend strictly and the last value of each name counts (`lookup_sorted`). A list with ascending names is
determined by what is found in it (`Ascending.eq_of_lookup`), so there is only one such object.
-/

namespace AhoCorasick

namespace Json

variable {fields fields' : List (String × Json)} {field head : String × Json} {name k : String} {v : Json}

/-- The names ascend strictly. -/
def Ascending (fields : List (String × Json)) : Prop := fields.Pairwise fun e f => e.1 < f.1

/-- The fields by ascending name, of each name the last one. -/
def sorted (fields : List (String × Json)) : List (String × Json) :=
  fields.foldl (fun sorted field => insertField field sorted) []

theorem sorted_concat (fields : List (String × Json)) (field : String × Json) :
    sorted (fields ++ [field]) = insertField field (sorted fields) := by
  rw [sorted, List.foldl_append]
  rfl

/-! ## Looking for a name -/

theorem lookup_cons_eq (field : String × Json) (fields : List (String × Json)) (k : String) :
    (field :: fields).lookup k = if k = field.1 then some field.2 else fields.lookup k := by
  rw [List.lookup_cons]
  by_cases hk : k = field.1
  · rw [if_pos hk, beq_iff_eq.mpr hk]
  · rw [if_neg hk, beq_eq_false_iff_ne.mpr hk]

theorem lookup_insertField (field : String × Json) (fields : List (String × Json)) (k : String) :
    (insertField field fields).lookup k = if k = field.1 then some field.2 else fields.lookup k := by
  induction fields with
  | nil => rw [insertField, lookup_cons_eq]
  | cons head rest ih =>
    by_cases hlt : field.1 < head.1
    · rw [insertField, if_pos hlt, lookup_cons_eq]
    · by_cases heq : field.1 = head.1
      · rw [insertField, if_neg hlt, if_pos heq, lookup_cons_eq, lookup_cons_eq, heq]
        by_cases hk : k = head.1
        · rw [if_pos hk, if_pos hk]
        · rw [if_neg hk, if_neg hk, if_neg hk]
      · rw [insertField, if_neg hlt, if_neg heq, lookup_cons_eq, ih, lookup_cons_eq]
        by_cases hk : k = head.1
        · rw [if_pos hk, if_pos hk, if_neg fun h => heq (h.symm.trans hk)]
        · rw [if_neg hk, if_neg hk]

theorem lookup_sorted (fields : List (String × Json)) (k : String) :
    (sorted fields).lookup k = fields.reverse.lookup k := by
  induction fields using List.reverseRecOn with
  | nil => rfl
  | append_singleton fields field ih =>
    rw [sorted_concat, lookup_insertField, ih, List.reverse_append, List.reverse_singleton, List.singleton_append,
      lookup_cons_eq]

/-! ## Ascending names -/

theorem mem_insertField (h : head ∈ insertField field fields) : head = field ∨ head ∈ fields := by
  induction fields with
  | nil => exact Or.inl (List.mem_singleton.mp h)
  | cons first rest ih =>
    rw [insertField] at h
    split_ifs at h with hlt heq
    · exact List.mem_cons.mp h
    · exact (List.mem_cons.mp h).imp_right (List.mem_cons_of_mem first)
    · rcases List.mem_cons.mp h with rfl | h
      · exact Or.inr List.mem_cons_self
      · exact (ih h).imp_right (List.mem_cons_of_mem first)

theorem Ascending.insertField (h : Ascending fields) (field : String × Json) :
    Ascending (insertField field fields) := by
  induction fields with
  | nil => exact List.pairwise_singleton _ _
  | cons head rest ih =>
    obtain ⟨hhead, hrest⟩ := List.pairwise_cons.mp h
    rw [Json.insertField]
    split_ifs with hlt heq
    · refine List.pairwise_cons.mpr ⟨fun f hf => ?_, h⟩
      rcases List.mem_cons.mp hf with rfl | hf
      · exact hlt
      · exact String.lt_trans hlt (hhead f hf)
    · exact List.pairwise_cons.mpr ⟨fun f hf => heq ▸ hhead f hf, hrest⟩
    · refine List.pairwise_cons.mpr ⟨fun f hf => ?_, ih hrest⟩
      rcases mem_insertField hf with rfl | hf
      · exact lt_of_le_of_ne (String.not_lt.mp hlt) (Ne.symm heq)
      · exact hhead f hf

theorem ascending_sorted (fields : List (String × Json)) : Ascending (sorted fields) := by
  induction fields using List.reverseRecOn with
  | nil => exact List.Pairwise.nil
  | append_singleton fields field ih =>
    rw [sorted_concat]
    exact ih.insertField field

theorem Ascending.mem_iff_lookup (h : Ascending fields) : (k, v) ∈ fields ↔ fields.lookup k = some v := by
  induction fields with
  | nil => simp
  | cons head rest ih =>
    obtain ⟨hhead, hrest⟩ := List.pairwise_cons.mp h
    rw [List.mem_cons, ih hrest, lookup_cons_eq]
    by_cases hk : k = head.1
    · have hnot : rest.lookup k ≠ some v := fun hlookup =>
        String.lt_irrefl k (hk ▸ hhead (k, v) ((ih hrest).mpr hlookup))
      rw [if_pos hk, or_iff_left hnot, Option.some.injEq, Prod.ext_iff, and_iff_right hk, eq_comm]
    · have hnot : (k, v) ≠ head := fun heq => hk (congrArg Prod.fst heq)
      rw [if_neg hk, or_iff_right hnot]

theorem Ascending.eq_of_lookup (h : Ascending fields) (h' : Ascending fields')
    (hlookup : ∀ k, fields.lookup k = fields'.lookup k) : fields = fields' := by
  have : Std.Irrefl fun e f : String × Json => e.1 < f.1 := ⟨fun e => String.lt_irrefl e.1⟩
  have : Std.Antisymm fun e f : String × Json => e.1 < f.1 := ⟨fun e f hlt hgt => absurd hlt (lt_asymm hgt)⟩
  refine List.Pairwise.eq_of_mem_iff h h' fun ⟨k, v⟩ => ?_
  rw [h.mem_iff_lookup, h'.mem_iff_lookup, hlookup]

end Json

end AhoCorasick
