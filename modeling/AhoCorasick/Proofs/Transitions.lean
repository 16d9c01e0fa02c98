import AhoCorasick.Transitions
import Mathlib

/-!
# Transition tables are partial maps

Both layouts answer as one partial map from bytes to states: after `set`, the byte leads to the new
state and every other byte leads where it led before (`child?_set`), and `children` lists exactly the
answers of `child?`, by strictly ascending byte (`mem_children`, `children_ascending`).

The sparse layout owes this to its order. On a table whose bytes ascend strictly, halving ends at the
position that separates the smaller bytes from the others (`lowerBound_separates`), so an entry is found
where it stands and put where it belongs. The dense layout owes it to the root being no target.
-/

namespace AhoCorasick

namespace Transitions

variable {entries : Array (UInt8 × StateId)} {t : Transitions} {b c : UInt8} {s : StateId}

/-- The bytes of a sparse table ascend strictly. -/
def Ordered : Transitions → Prop
  | .sparse entries => entries.toList.Pairwise fun e f => e.1 < f.1
  | .dense _ => True

/-! ## Halving -/

/-- Every entry before `lo` is below `b` and no entry from `hi` on is. -/
def Separates (entries : Array (UInt8 × StateId)) (b : UInt8) (lo hi : Nat) : Prop :=
  (∀ i e, entries[i]? = some e → i < lo → e.1 < b) ∧ ∀ i e, entries[i]? = some e → hi ≤ i → b ≤ e.1

theorem Ordered.lt {i j : Nat} {e f : UInt8 × StateId} (h : (sparse entries).Ordered)
    (hi : entries[i]? = some e) (hj : entries[j]? = some f) (hij : i < j) : e.1 < f.1 := by
  obtain ⟨hi', rfl⟩ := Array.getElem?_eq_some_iff.mp hi
  obtain ⟨hj', rfl⟩ := Array.getElem?_eq_some_iff.mp hj
  exact List.pairwise_iff_getElem.mp h i j hi' hj' hij

theorem run_halve (h : (sparse entries).Ordered) :
    ∀ (bound lo hi : Nat), lo ≤ hi → hi ≤ entries.size → hi - lo < bound →
      Separates entries b lo hi →
      ∃ i ≤ entries.size, Round.run (halve entries b) bound (lo, hi) = some i ∧
        Separates entries b i i := by
  intro bound
  induction bound with
  | zero => intro lo hi _ _ hlt; omega
  | succ bound ih =>
    intro lo hi hle hsize hlt hsep
    by_cases hempty : hi ≤ lo
    · have heq : hi = lo := by omega
      subst heq
      exact ⟨hi, hsize, by simp [Round.run, halve], hsep⟩
    · have hmid : lo + (hi - lo) / 2 < entries.size := by omega
      have hget : entries[lo + (hi - lo) / 2]? = some entries[lo + (hi - lo) / 2] :=
        Array.getElem?_eq_getElem hmid
      by_cases hbelow : entries[lo + (hi - lo) / 2].1 < b
      · obtain ⟨i, hi', hrun, hres⟩ := ih (lo + (hi - lo) / 2 + 1) hi (by omega) hsize (by omega)
          ⟨fun j e hj hlt => by
            rcases Nat.lt_or_eq_of_le (Nat.le_of_lt_succ hlt) with hlt | rfl
            · exact UInt8.lt_trans (h.lt hj hget hlt) hbelow
            · rw [hget, Option.some.injEq] at hj
              exact hj ▸ hbelow, hsep.2⟩
        refine ⟨i, hi', ?_, hres⟩
        rw [← hrun]
        simp [Round.run, halve, hempty, hget, hbelow]
      · obtain ⟨i, hi', hrun, hres⟩ := ih lo (lo + (hi - lo) / 2) (by omega) (by omega) (by omega)
          ⟨hsep.1, fun j e hj hle => by
            rcases Nat.lt_or_eq_of_le hle with hlt | rfl
            · exact UInt8.le_trans (UInt8.not_lt.mp hbelow) (UInt8.le_of_lt (h.lt hget hj hlt))
            · rw [hget, Option.some.injEq] at hj
              exact hj ▸ UInt8.not_lt.mp hbelow⟩
        refine ⟨i, hi', ?_, hres⟩
        rw [← hrun]
        simp [Round.run, halve, hempty, hget, hbelow]

theorem lowerBound_separates (h : (sparse entries).Ordered) (b : UInt8) :
    lowerBound entries b ≤ entries.size ∧
      Separates entries b (lowerBound entries b) (lowerBound entries b) := by
  obtain ⟨i, hi, hrun, hsep⟩ := run_halve (b := b) h (entries.size + 1) 0 entries.size (by omega)
    (by omega) (by omega) ⟨fun i e _ hlt => by omega, fun i e hi hle => by
      rw [Array.getElem?_eq_none hle] at hi
      cases hi⟩
  have heq : lowerBound entries b = i := by rw [lowerBound, hrun, Option.getD_some]
  rw [heq]
  exact ⟨hi, hsep⟩

theorem exists_split (h : (sparse entries).Ordered) (b : UInt8) :
    ∃ before after, entries.toList = before ++ after ∧ before.length = lowerBound entries b ∧
      (∀ e ∈ before, e.1 < b) ∧ ∀ e ∈ after, b ≤ e.1 := by
  obtain ⟨hle, hbelow, habove⟩ := lowerBound_separates h b
  refine ⟨entries.toList.take (lowerBound entries b), entries.toList.drop (lowerBound entries b),
    (List.take_append_drop ..).symm, by simpa using hle, ?_, ?_⟩
  · intro e he
    obtain ⟨i, hi⟩ := List.mem_iff_getElem?.mp he
    rw [List.getElem?_take] at hi
    split at hi
    · exact hbelow i e (by simpa using hi) ‹_›
    · cases hi
  · intro e he
    obtain ⟨i, hi⟩ := List.mem_iff_getElem?.mp he
    rw [List.getElem?_drop] at hi
    exact habove _ e (by simpa using hi) (Nat.le_add_right ..)

/-! ## The sparse layout -/

theorem getElem?_length_eq_head? {before after : List (UInt8 × StateId)}
    (hsplit : entries.toList = before ++ after) : entries[before.length]? = after.head? := by
  rw [← Array.getElem?_toList, hsplit, List.getElem?_append_right (Nat.le_refl _), Nat.sub_self,
    List.head?_eq_getElem?]

theorem child?_sparse_eq_some_iff (h : (sparse entries).Ordered) :
    (sparse entries).child? b = some s ↔ (b, s) ∈ entries.toList := by
  obtain ⟨before, after, hsplit, hlength, hbelow, habove⟩ := exists_split h b
  have hbefore : (b, s) ∉ before := fun hmem => UInt8.lt_irrefl b (hbelow _ hmem)
  have hordered : (before ++ after).Pairwise fun e f => e.1 < f.1 := hsplit ▸ h
  rw [hsplit, List.mem_append, or_iff_right hbefore, child?, ← hlength,
    getElem?_length_eq_head? hsplit]
  cases after with
  | nil => simp
  | cons e rest =>
    obtain ⟨c, s'⟩ := e
    have hrest : ∀ f ∈ rest, c < f.1 :=
      (List.pairwise_cons.mp (List.pairwise_append.mp hordered).2.1).1
    have hnot : (b, s) ∉ rest := fun hmem =>
      UInt8.lt_irrefl c (UInt8.lt_of_lt_of_le (hrest _ hmem) (habove _ List.mem_cons_self))
    simp only [List.head?_cons, List.mem_cons, Prod.mk.injEq, or_iff_left hnot]
    by_cases hc : c = b
    · simp [hc, eq_comm]
    · simp [hc, Ne.symm hc]

theorem insertIdx_length_append {α : Type} (before after : List α) (x : α) :
    (before ++ after).insertIdx before.length x = before ++ x :: after := by
  induction before with
  | nil => rfl
  | cons y before ih => simp [ih]

theorem set_sparse (h : (sparse entries).Ordered) (b : UInt8) (s : StateId) :
    ∃ before after, entries.toList = before ++ after ∧ (∀ e ∈ before, e.1 < b) ∧
      (∀ e ∈ after, b ≤ e.1) ∧
      (sparse entries).set b s = sparse (before ++ (b, s) :: after.filter (·.1 ≠ b)).toArray := by
  obtain ⟨before, after, hsplit, hlength, hbelow, habove⟩ := exists_split h b
  refine ⟨before, after, hsplit, hbelow, habove, ?_⟩
  have hordered : (before ++ after).Pairwise fun e f => e.1 < f.1 := hsplit ▸ h
  have hentries : entries = (before ++ after).toArray := by rw [← hsplit]
  simp only [set, ← hlength, getElem?_length_eq_head? hsplit]
  cases after with
  | nil => simp [hsplit]
  | cons e rest =>
    have hrest : ∀ f ∈ rest, e.1 < f.1 :=
      (List.pairwise_cons.mp (List.pairwise_append.mp hordered).2.1).1
    have hkeep : rest.filter (·.1 ≠ b) = rest := List.filter_eq_self.mpr fun f hf => by
      have hlt := UInt8.lt_of_le_of_lt (habove e List.mem_cons_self) (hrest f hf)
      simpa using fun heq : f.1 = b => UInt8.lt_irrefl b (heq ▸ hlt)
    by_cases he : e.1 = b
    · rw [if_pos (by simp [he]), List.filter_cons_of_neg (by simp [he]), hkeep, hentries]
      simp
    · rw [if_neg (by simpa using he), List.filter_cons_of_pos (by simpa using he), hkeep, hsplit,
        insertIdx_length_append]

theorem mem_set_sparse (h : (sparse entries).Ordered) {entries' : Array (UInt8 × StateId)}
    (hset : (sparse entries).set b s = sparse entries') (e : UInt8 × StateId) :
    e ∈ entries'.toList ↔ e = (b, s) ∨ e ∈ entries.toList ∧ e.1 ≠ b := by
  obtain ⟨before, after, hsplit, hbelow, -, heq⟩ := set_sparse h b s
  rw [hset, sparse.injEq] at heq
  have hne : e ∈ before → e.1 ≠ b := fun hmem hb => UInt8.lt_irrefl b (hb ▸ hbelow e hmem)
  simp only [heq, hsplit, List.mem_append, List.mem_cons, List.mem_filter, decide_eq_true_eq]
  tauto

/-! ## Both layouts -/

@[simp] theorem layout_empty (layout : Layout) : (empty layout).layout = layout := by
  cases layout <;> rfl

@[simp] theorem layout_set (t : Transitions) (b : UInt8) (s : StateId) : (t.set b s).layout = t.layout := by
  cases t with
  | dense slots => rfl
  | sparse entries =>
    rw [set]
    split_ifs <;> rfl

theorem ordered_empty (layout : Layout) : (empty layout).Ordered := by
  cases layout with
  | sparse => exact List.Pairwise.nil
  | dense => trivial

theorem Ordered.set (h : t.Ordered) (b : UInt8) (s : StateId) : (t.set b s).Ordered := by
  cases t with
  | dense slots => trivial
  | sparse entries =>
    obtain ⟨before, after, hsplit, hbelow, habove, heq⟩ := set_sparse h b s
    have hordered : (before ++ after).Pairwise fun e f => e.1 < f.1 := hsplit ▸ h
    obtain ⟨hbefore, hafter, hcross⟩ := List.pairwise_append.mp hordered
    rw [heq]
    refine List.pairwise_append.mpr ⟨hbefore, List.pairwise_cons.mpr ⟨?_, hafter.filter _⟩, ?_⟩
    · intro e he
      obtain ⟨hmem, hne⟩ := List.mem_filter.mp he
      exact UInt8.lt_of_le_of_ne (habove e hmem) (Ne.symm (by simpa using hne))
    · intro e he f hf
      rcases List.mem_cons.mp hf with rfl | hf
      · exact hbelow e he
      · exact hcross e he f (List.mem_filter.mp hf).1

@[simp] theorem child?_empty (layout : Layout) (b : UInt8) : (empty layout).child? b = none := by
  cases layout with
  | sparse => simp [empty, child?]
  | dense => simp [empty, child?, held?, Vector.get_eq_getElem]

/-- **A table is a partial map**: after `set` the byte leads to the new state, and every other byte
leads where it led before. -/
theorem child?_set (h : t.Ordered) (hs : s ≠ root) (b c : UInt8) :
    (t.set b s).child? c = if c = b then some s else t.child? c := by
  cases t with
  | dense slots =>
    have hslot : b.toNat = (c.toFin : Nat) ↔ c = b :=
      ⟨fun h => (UInt8.toNat_inj.mp h).symm, fun h => congrArg UInt8.toNat h.symm⟩
    simp only [Transitions.set, child?, Vector.get_eq_getElem, Vector.getElem_set, hslot]
    split
    · rw [held?, if_neg hs]
    · rfl
  | sparse entries =>
    obtain ⟨before, after, -, -, -, heq⟩ := set_sparse h b s
    have hordered : ((sparse entries).set b s).Ordered := h.set b s
    have hmem := mem_set_sparse h heq
    rw [heq] at hordered ⊢
    apply Option.ext
    intro x
    rw [child?_sparse_eq_some_iff hordered, hmem]
    by_cases hc : c = b
    · simp [hc, eq_comm]
    · simp [hc, child?_sparse_eq_some_iff h]

/-! ## Children -/

theorem allBytes_ascending : allBytes.Pairwise (· < ·) := by
  rw [allBytes, List.pairwise_map]
  exact (List.pairwise_lt_finRange 256).imp fun h => UInt8.ofFin_lt_iff_lt.mpr h

theorem mem_allBytes (b : UInt8) : b ∈ allBytes :=
  List.mem_map.mpr ⟨b.toFin, List.mem_finRange _, rfl⟩

theorem eq_of_ascending {es fs : List (UInt8 × StateId)} (hes : es.Pairwise fun e f => e.1 < f.1)
    (hfs : fs.Pairwise fun e f => e.1 < f.1) (hmem : ∀ e, e ∈ es ↔ e ∈ fs) : es = fs := by
  have : Std.Irrefl fun e f : UInt8 × StateId => e.1 < f.1 := ⟨fun e => UInt8.lt_irrefl e.1⟩
  have : Std.Antisymm fun e f : UInt8 × StateId => e.1 < f.1 :=
    ⟨fun e f hlt hgt => absurd hlt (UInt8.lt_asymm hgt)⟩
  exact hes.eq_of_mem_iff hfs hmem

theorem mem_children (h : t.Ordered) : (b, s) ∈ t.children ↔ t.child? b = some s := by
  cases t with
  | sparse entries => rw [child?_sparse_eq_some_iff h, children]
  | dense slots =>
    simp only [children, child?, List.mem_filterMap, Option.map_eq_some_iff, Prod.mk.injEq]
    constructor
    · rintro ⟨c, -, s', hs', rfl, rfl⟩
      exact hs'
    · intro hs
      exact ⟨b, mem_allBytes b, s, hs, rfl, rfl⟩

@[simp] theorem children_empty (layout : Layout) : (empty layout).children = [] := by
  rw [List.eq_nil_iff_forall_not_mem]
  rintro ⟨b, s⟩ hmem
  rw [mem_children (ordered_empty layout), child?_empty] at hmem
  cases hmem

theorem children_ascending (h : t.Ordered) : t.children.Pairwise fun e f => e.1 < f.1 := by
  cases t with
  | sparse entries => exact h
  | dense slots =>
    refine List.Pairwise.filterMap _ ?_ allBytes_ascending
    intro b c hlt e he f hf
    obtain ⟨s, -, rfl⟩ := Option.map_eq_some_iff.mp he
    obtain ⟨s', -, rfl⟩ := Option.map_eq_some_iff.mp hf
    exact hlt

end Transitions

end AhoCorasick
