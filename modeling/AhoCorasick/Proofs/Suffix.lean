import AhoCorasick.Basic
import Mathlib

/-!
# Longest suffixes

The longest suffix of a word that has a property, and the longest one other than the word itself. If
the property passes to prefixes, the longest suffix of `w ++ [b]` is that of `v ++ [b]` for the longest
suffix `v` of `w` (`LongestSuffix.append_singleton`): nothing longer is lost when `v` is kept in place
of `w`. This is all that following failure links relies on.

The suffixes of a word with a property, longest first, are a filtered list of tails; it starts with the
longest one and goes on with the proper suffixes of that one (`LongestSuffix.filter_tails`).
-/

namespace AhoCorasick

/-- `v` is the longest suffix of `w` that has the property. -/
structure LongestSuffix (P : Bytes → Prop) (w v : Bytes) : Prop where
  suffix : v <:+ w
  holds : P v
  longest : ∀ u, u <:+ w → P u → u.length ≤ v.length

/-- `v` is the longest suffix of `w` other than `w` itself that has the property. -/
structure LongestProperSuffix (P : Bytes → Prop) (w v : Bytes) : Prop where
  suffix : v <:+ w
  ne : v ≠ w
  holds : P v
  longest : ∀ u, u <:+ w → u ≠ w → P u → u.length ≤ v.length

variable {P Q : Bytes → Prop} {u v w x : Bytes} {b : UInt8}

/-! ## Longest suffixes are unique and exist -/

theorem LongestSuffix.unique (hv : LongestSuffix P w v) (hx : LongestSuffix P w x) : v = x := by
  have hlength : v.length = x.length :=
    Nat.le_antisymm (hx.longest v hv.suffix hv.holds) (hv.longest x hx.suffix hx.holds)
  exact (List.suffix_of_suffix_length_le hv.suffix hx.suffix hlength.le).eq_of_length hlength

theorem longestProperSuffix_cons : LongestProperSuffix P (b :: w) v ↔ LongestSuffix P w v := by
  have hproper : ∀ u, u <:+ b :: w ∧ u ≠ b :: w ↔ u <:+ w := fun u => by
    rw [List.suffix_cons_iff]
    constructor
    · rintro ⟨rfl | h, hne⟩
      · exact (hne rfl).elim
      · exact h
    · intro h
      refine ⟨Or.inr h, ?_⟩
      rintro rfl
      have := h.length_le
      simp at this
  constructor
  · intro h
    refine ⟨(hproper v).mp ⟨h.suffix, h.ne⟩, h.holds, fun u hu hP => ?_⟩
    obtain ⟨hu, hne⟩ := (hproper u).mpr hu
    exact h.longest u hu hne hP
  · intro h
    obtain ⟨hsuffix, hne⟩ := (hproper v).mpr h.suffix
    exact ⟨hsuffix, hne, h.holds, fun u hu hne hP => h.longest u ((hproper u).mp ⟨hu, hne⟩) hP⟩

theorem LongestProperSuffix.unique (hv : LongestProperSuffix P w v)
    (hx : LongestProperSuffix P w x) : v = x := by
  cases w with
  | nil => exact absurd (List.suffix_nil.mp hv.suffix) hv.ne
  | cons b w => exact (longestProperSuffix_cons.mp hv).unique (longestProperSuffix_cons.mp hx)

theorem LongestProperSuffix.length_lt (h : LongestProperSuffix P w v) : v.length < w.length :=
  lt_of_le_of_ne h.suffix.length_le fun heq => h.ne (h.suffix.eq_of_length heq)

theorem exists_longestSuffix (hsuffix : u <:+ w) (hu : P u) : ∃ v, LongestSuffix P w v := by
  induction w with
  | nil =>
    obtain rfl := List.suffix_nil.mp hsuffix
    refine ⟨[], List.suffix_refl _, hu, fun u hu _ => ?_⟩
    rw [List.suffix_nil.mp hu]
  | cons b w ih =>
    by_cases hw : P (b :: w)
    · exact ⟨b :: w, List.suffix_refl _, hw, fun u hu _ => hu.length_le⟩
    · rcases List.suffix_cons_iff.mp hsuffix with rfl | hsuffix
      · exact absurd hu hw
      · obtain ⟨v, hv⟩ := ih hsuffix
        refine ⟨v, hv.suffix.trans (List.suffix_cons b w), hv.holds, fun u hu hP => ?_⟩
        rcases List.suffix_cons_iff.mp hu with rfl | hu
        · exact absurd hP hw
        · exact hv.longest u hu hP

theorem exists_longestSuffix_or (P : Bytes → Prop) (w : Bytes) :
    (∃ v, LongestSuffix P w v) ∨ ∀ u, u <:+ w → ¬P u := by
  by_cases hex : ∃ u, u <:+ w ∧ P u
  · obtain ⟨u, hu, hP⟩ := hex
    exact Or.inl (exists_longestSuffix hu hP)
  · exact Or.inr fun u hu hP => hex ⟨u, hu, hP⟩

theorem exists_longestProperSuffix (hsuffix : u <:+ w) (hne : u ≠ w) (hu : P u) :
    ∃ v, LongestProperSuffix P w v := by
  cases w with
  | nil => exact absurd (List.suffix_nil.mp hsuffix) hne
  | cons b w =>
    have hbelow : u <:+ w := (List.suffix_cons_iff.mp hsuffix).resolve_left hne
    obtain ⟨v, hv⟩ := exists_longestSuffix hbelow hu
    exact ⟨v, longestProperSuffix_cons.mpr hv⟩

/-! ## Reading one more byte -/

/-- The property passes from a word to its prefixes. -/
def PrefixClosed (P : Bytes → Prop) : Prop := ∀ w b, P (w ++ [b]) → P w

theorem suffix_append_singleton_iff : u <:+ w ++ [b] ↔ u = [] ∨ ∃ v, v <:+ w ∧ u = v ++ [b] := by
  constructor
  · rintro ⟨front, hfront⟩
    rcases List.eq_nil_or_concat u with rfl | ⟨v, c, rfl⟩
    · exact Or.inl rfl
    · rw [List.concat_eq_append, ← List.append_assoc] at hfront
      obtain ⟨hw, hc⟩ := List.append_inj' hfront rfl
      rw [List.singleton_inj] at hc
      exact Or.inr ⟨v, ⟨front, hw⟩, by rw [List.concat_eq_append, hc]⟩
  · rintro (rfl | ⟨v, ⟨front, rfl⟩, rfl⟩)
    · exact List.nil_suffix
    · exact ⟨front, by rw [List.append_assoc]⟩

/-- A longer suffix of `w ++ [b]` would extend a longer suffix of `w`. -/
theorem LongestSuffix.append_singleton (hP : PrefixClosed P) (hv : LongestSuffix P w v)
    (hx : LongestSuffix P (v ++ [b]) x) : LongestSuffix P (w ++ [b]) x := by
  have hstep : v ++ [b] <:+ w ++ [b] := suffix_append_singleton_iff.mpr (Or.inr ⟨v, hv.suffix, rfl⟩)
  refine ⟨hx.suffix.trans hstep, hx.holds, fun u hu hPu => hx.longest u ?_ hPu⟩
  rcases suffix_append_singleton_iff.mp hu with rfl | ⟨u, hshort, rfl⟩
  · exact List.nil_suffix
  · have hle : u.length ≤ v.length := hv.longest u hshort (hP u b hPu)
    exact suffix_append_singleton_iff.mpr
      (Or.inr ⟨u, List.suffix_of_suffix_length_le hshort hv.suffix hle, rfl⟩)

theorem LongestProperSuffix.append_singleton (hP : PrefixClosed P) (hv : LongestProperSuffix P w v)
    (hx : LongestSuffix P (v ++ [b]) x) : LongestProperSuffix P (w ++ [b]) x := by
  cases w with
  | nil => exact absurd (List.suffix_nil.mp hv.suffix) hv.ne
  | cons c w =>
    exact longestProperSuffix_cons.mpr ((longestProperSuffix_cons.mp hv).append_singleton hP hx)

theorem LongestProperSuffix.longestSuffix (h : LongestProperSuffix P w v) (hw : ¬P w) :
    LongestSuffix P w v :=
  ⟨h.suffix, h.holds, fun u hu hPu => h.longest u hu (fun heq => hw (heq ▸ hPu)) hPu⟩

theorem longestSuffix_self (hw : P w) : LongestSuffix P w w :=
  ⟨List.suffix_refl w, hw, fun _ hu _ => hu.length_le⟩

theorem LongestProperSuffix.longestSuffix_iff (h : LongestProperSuffix P w v)
    (hQP : ∀ u, Q u → P u) : LongestSuffix Q v x ↔ LongestProperSuffix Q w x := by
  have hbelow : ∀ u, u <:+ w → u ≠ w → Q u → u <:+ v := fun u hu hne hQ =>
    List.suffix_of_suffix_length_le hu h.suffix (h.longest u hu hne (hQP u hQ))
  constructor
  · intro hx
    refine ⟨hx.suffix.trans h.suffix, ?_, hx.holds, fun u hu hne hQ =>
      hx.longest u (hbelow u hu hne hQ) hQ⟩
    rintro rfl
    exact Nat.lt_irrefl _ (Nat.lt_of_lt_of_le h.length_lt hx.suffix.length_le)
  · intro hx
    refine ⟨hbelow x hx.suffix hx.ne hx.holds, hx.holds, fun u hu hQ =>
      hx.longest u (hu.trans h.suffix) ?_ hQ⟩
    rintro rfl
    exact Nat.lt_irrefl _ (Nat.lt_of_lt_of_le h.length_lt hu.length_le)

theorem longestSuffix_iff_proper (hw : ¬P w) : LongestSuffix P w v ↔ LongestProperSuffix P w v :=
  ⟨fun h => ⟨h.suffix, fun heq => hw (heq ▸ h.holds), h.holds, fun u hu _ => h.longest u hu⟩,
    fun h => h.longestSuffix hw⟩

/-! ## All suffixes with a property -/

theorem tails_pairwise_length (w : Bytes) : w.tails.Pairwise fun u v => v.length < u.length := by
  induction w with
  | nil => simp
  | cons b w ih =>
    rw [List.tails_cons, List.pairwise_cons]
    refine ⟨fun u hu => ?_, ih⟩
    have := ((List.mem_tails u w).mp hu).length_le
    simp only [List.length_cons]
    omega

theorem filter_tails_eq_nil [DecidablePred P] (h : ∀ u, u <:+ w → ¬P u) :
    w.tails.filter (P ·) = [] :=
  List.filter_eq_nil_iff.mpr fun u hu => by simpa using h u ((List.mem_tails u w).mp hu)

theorem LongestSuffix.filter_tails_eq [DecidablePred Q] (h : LongestSuffix P w v)
    (hQP : ∀ u, Q u → P u) : w.tails.filter (Q ·) = v.tails.filter (Q ·) := by
  induction w with
  | nil => rw [List.suffix_nil.mp h.suffix]
  | cons b w ih =>
    rcases List.suffix_cons_iff.mp h.suffix with rfl | hsuffix
    · rfl
    · have hnot : ¬Q (b :: w) := fun hQ => by
        have hle := h.longest _ (List.suffix_refl _) (hQP _ hQ)
        have := hsuffix.length_le
        simp only [List.length_cons] at hle
        omega
      rw [List.tails_cons, List.filter_cons_of_neg (by simpa using hnot)]
      exact ih ⟨hsuffix, h.holds, fun u hu hP => h.longest u (hu.trans (List.suffix_cons b w)) hP⟩

theorem LongestSuffix.filter_tails [DecidablePred P] (h : LongestSuffix P w v) :
    w.tails.filter (P ·) = v :: v.tails.tail.filter (P ·) := by
  rw [h.filter_tails_eq fun _ hP => hP]
  cases v with
  | nil => simp [h.holds]
  | cons b v => rw [List.tails_cons, List.filter_cons_of_pos (by simpa using h.holds), List.tail_cons]

end AhoCorasick
