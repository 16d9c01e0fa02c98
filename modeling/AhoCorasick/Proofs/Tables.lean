import AhoCorasick.Proofs.Transitions

/-!
# A table holds what was set last

Bytes are set one after another, in any order and as often as may be. Each byte then leads where it was last set to
(`child?_setAll`), so a table is known by the entries that have been set, and the layouts cannot be told apart
(`children_setAll_congr`). Insertion keeps the order that halving needs, so a sparse table can be searched after
each of the calls (`exists_entries_setAll`).
-/

namespace AhoCorasick

namespace Transitions

variable {calls : List (UInt8 × StateId)} {t : Transitions} {b c : UInt8} {s s' : StateId}

/-- Lets bytes lead to states, one after another. -/
def setAll (t : Transitions) (calls : List (UInt8 × StateId)) : Transitions :=
  calls.foldl (fun t e => t.set e.1 e.2) t

theorem setAll_concat (t : Transitions) (calls : List (UInt8 × StateId)) (b : UInt8) (s : StateId) :
    t.setAll (calls ++ [(b, s)]) = (t.setAll calls).set b s := by
  rw [setAll, List.foldl_append, List.foldl_cons, List.foldl_nil, setAll]

/-! ## The last call for a byte -/

/-- The last of the calls that are for byte `b` is for the state `s`. -/
def LastSet (calls : List (UInt8 × StateId)) (b : UInt8) (s : StateId) : Prop :=
  ∃ before after, calls = before ++ (b, s) :: after ∧ ∀ e ∈ after, e.1 ≠ b

theorem not_lastSet_nil : ¬LastSet [] b s := by
  rintro ⟨before, after, hsplit, -⟩
  simp at hsplit

theorem lastSet_concat :
    LastSet (calls ++ [(c, s')]) b s ↔ if b = c then s' = s else LastSet calls b s := by
  constructor
  · rintro ⟨before, after, hsplit, hafter⟩
    rcases List.eq_nil_or_concat after with rfl | ⟨rest, e, rfl⟩
    · obtain ⟨-, hlast⟩ := List.append_inj' hsplit rfl
      obtain ⟨rfl, rfl⟩ := Prod.mk.inj (List.singleton_inj.mp hlast)
      rw [if_pos rfl]
    · rw [List.concat_eq_append] at hsplit hafter
      rw [← List.cons_append, ← List.append_assoc] at hsplit
      obtain ⟨hcalls, hlast⟩ := List.append_inj' hsplit rfl
      obtain rfl := List.singleton_inj.mp hlast
      have hne : c ≠ b := hafter (c, s') (by simp)
      rw [if_neg hne.symm]
      exact ⟨before, rest, hcalls, fun e he => hafter e (List.mem_append_left _ he)⟩
  · split_ifs with hb
    · rintro rfl
      subst hb
      exact ⟨calls, [], rfl, by simp⟩
    · rintro ⟨before, after, rfl, hafter⟩
      refine ⟨before, after ++ [(c, s')], by simp, fun e he => ?_⟩
      rcases List.mem_append.mp he with he | he
      · exact hafter e he
      · rw [List.mem_singleton.mp he]
        exact Ne.symm hb

theorem exists_lastSet_iff : (∃ s, LastSet calls b s) ↔ ∃ e ∈ calls, e.1 = b := by
  constructor
  · rintro ⟨s, before, after, rfl, -⟩
    exact ⟨(b, s), by simp, rfl⟩
  · induction calls using List.reverseRecOn with
    | nil => simp
    | append_singleton calls e ih =>
      rintro ⟨f, hf, rfl⟩
      by_cases he : f.1 = e.1
      · exact ⟨e.2, lastSet_concat.mpr (by rw [if_pos he])⟩
      · have hold : f ∈ calls := (List.mem_append.mp hf).resolve_right fun hlast => by
          exact he (congrArg Prod.fst (List.mem_singleton.mp hlast))
        obtain ⟨s, hs⟩ := ih ⟨f, hold, rfl⟩
        exact ⟨s, lastSet_concat.mpr (by rwa [if_neg he])⟩

/-! ## After the calls -/

theorem Ordered.setAll (h : t.Ordered) (calls : List (UInt8 × StateId)) : (t.setAll calls).Ordered := by
  induction calls using List.reverseRecOn with
  | nil => exact h
  | append_singleton calls e ih =>
    rw [setAll_concat]
    exact ih.set e.1 e.2

@[simp] theorem layout_setAll (t : Transitions) (calls : List (UInt8 × StateId)) :
    (t.setAll calls).layout = t.layout := by
  induction calls using List.reverseRecOn with
  | nil => rfl
  | append_singleton calls e ih => rw [setAll_concat, layout_set, ih]

theorem exists_entries (h : t.layout = .sparse) : ∃ entries, t = sparse entries := by
  cases t with
  | sparse entries => exact ⟨entries, rfl⟩
  | dense slots => cases h

theorem exists_entries_setAll (calls : List (UInt8 × StateId)) :
    ∃ entries, (empty .sparse).setAll calls = sparse entries ∧
      (entries.toList.Pairwise fun e f => e.1 < f.1) ∧
      ∀ b, lowerBound entries b ≤ entries.size ∧
        Separates entries b (lowerBound entries b) (lowerBound entries b) := by
  obtain ⟨entries, hentries⟩ : ∃ entries, (empty .sparse).setAll calls = sparse entries :=
    exists_entries (by rw [layout_setAll, layout_empty])
  have hordered : (sparse entries).Ordered := hentries ▸ (ordered_empty .sparse).setAll calls
  exact ⟨entries, hentries, hordered, lowerBound_separates hordered⟩

theorem child?_setAll (layout : Layout) (hcalls : ∀ e ∈ calls, e.2 ≠ root) :
    ((empty layout).setAll calls).child? b = some s ↔ LastSet calls b s := by
  induction calls using List.reverseRecOn with
  | nil => simp [Transitions.setAll, not_lastSet_nil]
  | append_singleton calls e ih =>
    have hordered := (ordered_empty layout).setAll calls
    have hroot : e.2 ≠ root := hcalls e (by simp)
    rw [setAll_concat, child?_set hordered hroot, lastSet_concat]
    split_ifs with hb
    · rw [Option.some.injEq]
    · exact ih fun e he => hcalls e (List.mem_append_left _ he)

theorem child?_setAll_eq_none_iff (layout : Layout) (hcalls : ∀ e ∈ calls, e.2 ≠ root) :
    ((empty layout).setAll calls).child? b = none ↔ ∀ e ∈ calls, e.1 ≠ b := by
  have hset : (∃ s, ((empty layout).setAll calls).child? b = some s) ↔ ∃ e ∈ calls, e.1 = b := by
    simp only [child?_setAll layout hcalls, exists_lastSet_iff]
  rw [Option.eq_none_iff_forall_ne_some, ← not_exists, hset]
  simp only [not_exists, not_and]

theorem mem_children_setAll (layout : Layout) (hcalls : ∀ e ∈ calls, e.2 ≠ root) :
    (b, s) ∈ ((empty layout).setAll calls).children ↔ LastSet calls b s := by
  rw [mem_children ((ordered_empty layout).setAll calls), child?_setAll layout hcalls]

theorem children_setAll_congr (layout layout' : Layout) (hcalls : ∀ e ∈ calls, e.2 ≠ root) :
    ((empty layout).setAll calls).children = ((empty layout').setAll calls).children := by
  refine eq_of_ascending (children_ascending ((ordered_empty layout).setAll calls))
    (children_ascending ((ordered_empty layout').setAll calls)) fun e => ?_
  rw [mem_children_setAll layout hcalls, mem_children_setAll layout' hcalls]

/-! ## Main result -/

/-- **A table holds what was set last.** Whatever bytes are set in an empty table of either layout, each byte leads
where it was last set to, and nowhere if it has not been set. After each call the entries of a sparse table ascend
strictly by byte, so that halving finds its place. The children are the bytes that have been set with the states they
were last set to, by strictly ascending byte, and they are the same list in both layouts. -/
theorem keeps_last_set (calls : List (UInt8 × StateId)) (hcalls : ∀ e ∈ calls, e.2 ≠ root) :
    (∀ layout b, (∀ s, ((empty layout).setAll calls).child? b = some s ↔ LastSet calls b s) ∧
      (((empty layout).setAll calls).child? b = none ↔ ∀ e ∈ calls, e.1 ≠ b)) ∧
    (∀ done, done <+: calls → ∃ entries, (empty .sparse).setAll done = sparse entries ∧
      (entries.toList.Pairwise fun e f => e.1 < f.1) ∧
      ∀ b, lowerBound entries b ≤ entries.size ∧
        Separates entries b (lowerBound entries b) (lowerBound entries b)) ∧
    (∀ layout, (∀ b s, (b, s) ∈ ((empty layout).setAll calls).children ↔ LastSet calls b s) ∧
      ((empty layout).setAll calls).children.Pairwise fun e f => e.1 < f.1) ∧
    ((empty .sparse).setAll calls).children = ((empty .dense).setAll calls).children := by
  refine ⟨fun layout b => ⟨fun s => child?_setAll layout hcalls, child?_setAll_eq_none_iff layout hcalls⟩,
    fun done _ => exists_entries_setAll done, fun layout => ⟨fun b s => mem_children_setAll layout hcalls, ?_⟩,
    children_setAll_congr .sparse .dense hcalls⟩
  exact children_ascending ((ordered_empty layout).setAll calls)

/-- The byte 97 is set twice, behind the others and then before them. -/
theorem keeps_last_set_twice :
    (∀ e ∈ [((97 : UInt8), 7), (99, 3), (98, 2), (97, 5)], e.2 ≠ root) ∧
      ((empty .dense).setAll [(97, 7), (99, 3), (98, 2), (97, 5)]).child? 97 = some 5 ∧
      ((empty .sparse).setAll [(97, 7), (99, 3), (98, 2), (97, 5)]).child? 100 = none ∧
      ((empty .dense).setAll [(97, 7), (99, 3), (98, 2), (97, 5)]).children = [(97, 5), (98, 2), (99, 3)] := by
  have hcalls : ∀ e ∈ [((97 : UInt8), 7), (99, 3), (98, 2), (97, 5)], e.2 ≠ root := by decide
  obtain ⟨hchild, -, -, hchildren⟩ := keeps_last_set [(97, 7), (99, 3), (98, 2), (97, 5)] hcalls
  exact ⟨hcalls, ((hchild .dense 97).1 5).mpr ⟨[(97, 7), (99, 3), (98, 2)], [], rfl, by simp⟩,
    (hchild .sparse 100).2.mpr (by decide), hchildren.symm.trans rfl⟩

end Transitions

end AhoCorasick
