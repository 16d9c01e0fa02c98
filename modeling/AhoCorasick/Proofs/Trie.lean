import AhoCorasick.Proofs.Prefixes
import AhoCorasick.Proofs.Transitions
import AhoCorasick.Trie

/-!
# The trie spells the prefixes of the patterns

`Trie.Holds t labels patterns` says what a trie is while patterns are read: its states are the words
`labels`, numbered in this order, a transition appends its byte, and the state of a word records the
patterns equal to it. One `step` adds at most one word at the end (`Holds.step`), so a pattern adds its
prefixes by ascending length (`Holds.path`), and the finished trie holds exactly the list `prefixes` of
the patterns (`holds_ofPatterns`).

The state of a word is found by following it from the root (`Holds.find?_eq_some_iff`).
-/

namespace AhoCorasick

theorem idsOf_concat (patterns : List Bytes) (p w : Bytes) :
    idsOf (patterns ++ [p]) w = idsOf patterns w ++ if p = w then [patterns.length] else [] := by
  have hold : ∀ i ∈ List.range patterns.length, (patterns ++ [p])[i]? = patterns[i]? := fun i hi =>
    List.getElem?_append_left (List.mem_range.mp hi)
  rw [idsOf, List.length_append, List.length_singleton, List.range_succ, List.filter_append]
  congr 1
  · exact List.filter_congr fun i hi => by rw [hold i hi]
  · simp [List.filter_cons]

theorem mem_idsOf {patterns : List Bytes} {w : Bytes} {i : Nat} :
    i ∈ idsOf patterns w ↔ patterns[i]? = some w := by
  simp only [idsOf, List.mem_filter, List.mem_range, decide_eq_true_eq, and_iff_right_iff_imp]
  intro h
  exact (List.getElem?_eq_some_iff.mp h).1

theorem idsOf_ne_nil_iff {patterns : List Bytes} {w : Bytes} :
    idsOf patterns w ≠ [] ↔ w ∈ patterns := by
  rw [List.mem_iff_getElem?]
  constructor
  · intro h
    obtain ⟨i, hi⟩ := List.exists_mem_of_ne_nil _ h
    exact ⟨i, mem_idsOf.mp hi⟩
  · rintro ⟨i, hi⟩
    exact List.ne_nil_of_mem (mem_idsOf.mpr hi)

theorem idsOf_eq_nil_iff {patterns : List Bytes} {w : Bytes} : idsOf patterns w = [] ↔ w ∉ patterns := by
  rw [← idsOf_ne_nil_iff, not_ne_iff]

theorem getElem?_concat_eq_some_iff {α : Type} {xs : List α} {x y : α} {i : Nat} :
    (xs ++ [x])[i]? = some y ↔ xs[i]? = some y ∨ i = xs.length ∧ x = y := by
  rcases Nat.lt_trichotomy i xs.length with hi | rfl | hi
  · rw [List.getElem?_append_left hi]
    simp [hi.ne]
  · simp
  · rw [List.getElem?_eq_none (by simp; omega), List.getElem?_eq_none hi.le]
    simp [hi.ne']

theorem bind_eq_ok {ε α β : Type} {x : Except ε α} {f : α → Except ε β} {r : β} :
    (x >>= f) = .ok r ↔ ∃ a, x = .ok a ∧ f a = .ok r := by
  cases x with
  | error e => simp [bind, Except.bind]
  | ok a => simp [bind, Except.bind]

namespace Trie

variable {config : Builder} {t t' : Trie} {labels patterns : List Bytes} {s s' i : StateId}
  {b c : UInt8} {w : Bytes}

/-- The table of every state is in order. -/
def Ordered (t : Trie) : Prop :=
  ∀ (i : StateId) (node : Node), t.nodes[i]? = some node → node.transitions.Ordered

theorem lt_size_of_child? (h : t.child? s b = some s') : s < t.size := by
  by_contra hge
  rw [child?, Array.getElem?_eq_none (Nat.le_of_not_lt hge)] at h
  cases h

/-! ## One more state -/

/-- The trie with one more state, to which byte `b` leads from `s`. -/
def grown (config : Builder) (t : Trie) (s : StateId) (b : UInt8) : Trie :=
  setChild { t with nodes := t.nodes.push ⟨.empty config.layout, #[], t.depth s + 1⟩ } s b t.size

theorem step_of_some (config : Builder) (h : t.child? s b = some s') :
    t.step config s b = .ok (t, s') := by
  simp only [step, h]

theorem step_of_none (config : Builder) (h : t.child? s b = none) :
    t.step config s b = (config.permit t.size).map fun _ => (t.grown config s b, t.size) := by
  simp only [step, h, addNode]
  cases config.permit t.size <;> rfl

theorem step_cases (h : t.step config s b = .ok (t', s')) :
    t.child? s b = some s' ∧ t' = t ∨
      t.child? s b = none ∧ config.permit t.size = .ok () ∧ t' = t.grown config s b ∧ s' = t.size := by
  cases hchild : t.child? s b with
  | some c =>
    rw [step_of_some config hchild, Except.ok.injEq, Prod.mk.injEq] at h
    obtain ⟨rfl, rfl⟩ := h
    exact Or.inl ⟨rfl, rfl⟩
  | none =>
    rw [step_of_none config hchild] at h
    cases hpermit : config.permit t.size with
    | error e => simp [hpermit, Except.map] at h
    | ok =>
      simp only [hpermit, Except.map, Except.ok.injEq, Prod.mk.injEq] at h
      exact Or.inr ⟨rfl, rfl, h.1.symm, h.2.symm⟩

theorem getElem?_nodes_grown (hs : s < t.size) (i : StateId) :
    (t.grown config s b).nodes[i]? =
      if i = s then t.nodes[i]?.map fun node =>
        { node with transitions := node.transitions.set b t.size }
      else if i = t.size then some ⟨.empty config.layout, #[], t.depth s + 1⟩
      else t.nodes[i]? := by
  have hne : s ≠ t.nodes.size := Nat.ne_of_lt hs
  simp only [grown, setChild, size, Array.getElem?_modify, Array.getElem?_push]
  by_cases hi : i = s
  · subst hi
    simp [hne]
  · rw [if_neg hi, if_neg (Ne.symm hi)]
    rfl

@[simp] theorem size_grown : (t.grown config s b).size = t.size + 1 := by
  simp [grown, setChild, size]

theorem getElem?_nodes_size (t : Trie) : t.nodes[t.size]? = none :=
  Array.getElem?_eq_none (Nat.le_refl _)

theorem depth_grown (hs : s < t.size) (i : StateId) :
    (t.grown config s b).depth i = if i = t.size then t.depth s + 1 else t.depth i := by
  rw [depth, getElem?_nodes_grown hs]
  by_cases hi : i = s
  · subst hi
    rw [if_pos rfl, if_neg (Nat.ne_of_lt hs), depth]
    cases t.nodes[i]? <;> rfl
  · rw [if_neg hi]
    split_ifs <;> rfl

theorem endings_grown (hs : s < t.size) (i : StateId) :
    (t.grown config s b).endings i = t.endings i := by
  rw [endings, getElem?_nodes_grown hs, endings]
  by_cases hi : i = s
  · rw [if_pos hi]
    cases t.nodes[i]? <;> rfl
  · rw [if_neg hi]
    split_ifs with hsize
    · rw [hsize, getElem?_nodes_size]
    · rfl

theorem child?_grown (hord : t.Ordered) (hs : s < t.size) (i : StateId) (c : UInt8) :
    (t.grown config s b).child? i c = if i = s ∧ c = b then some t.size else t.child? i c := by
  rw [child?, getElem?_nodes_grown hs, child?]
  by_cases hi : i = s
  · subst hi
    have hget : t.nodes[i]? = some t.nodes[i] := Array.getElem?_eq_getElem hs
    have hroot : t.size ≠ root := Nat.ne_of_gt (Nat.zero_lt_of_lt hs)
    rw [if_pos rfl, hget]
    simp [Transitions.child?_set (hord i _ hget) hroot]
  · have hedge : ¬(i = s ∧ c = b) := fun h => hi h.1
    rw [if_neg hi, if_neg hedge]
    split_ifs with hsize
    · rw [hsize, getElem?_nodes_size]
      exact Transitions.child?_empty _ _
    · rfl

theorem Ordered.grown (hord : t.Ordered) (hs : s < t.size) : (t.grown config s b).Ordered := by
  intro i node hnode
  rw [getElem?_nodes_grown hs] at hnode
  split_ifs at hnode with hi hsize
  · obtain ⟨old, hold, rfl⟩ := Option.map_eq_some_iff.mp hnode
    exact (hord i old hold).set b t.size
  · rw [← Option.some.inj hnode]
    exact Transitions.ordered_empty _
  · exact hord i node hnode

theorem path_concat (config : Builder) (t : Trie) (w : Bytes) (b : UInt8) :
    t.path config (w ++ [b]) = t.path config w >>= fun q => q.1.step config q.2 b := by
  simp only [path, List.foldlM_append, List.foldlM_cons, List.foldlM_nil, bind_pure]

theorem path_concat_eq_ok {r : Trie × StateId} :
    t.path config (w ++ [b]) = .ok r ↔
      ∃ q, t.path config w = .ok q ∧ q.1.step config q.2 b = .ok r := by
  rw [path_concat, bind_eq_ok]

theorem insert_eq_ok : t.insert config w = .ok t' ↔
    ∃ q, t.path config w = .ok q ∧ q.1.record q.2 w.length = t' := by
  rw [insert, bind_eq_ok]
  simp only [pure, Except.pure, Except.ok.injEq]

/-! ## What a trie holds -/

/-- The states of `t` are the words `labels`, numbered in this order, and `patterns` are recorded. -/
structure Holds (t : Trie) (labels patterns : List Bytes) : Prop where
  size_eq : t.size = labels.length
  nodup : labels.Nodup
  root_label : labels[root]? = some []
  closed : ∀ w b, w ++ [b] ∈ labels → w ∈ labels
  depth_eq : ∀ {s w}, labels[s]? = some w → t.depth s = w.length
  child_iff : ∀ {s w b s'}, labels[s]? = some w →
    (t.child? s b = some s' ↔ labels[s']? = some (w ++ [b]))
  ordered : t.Ordered
  pattern_mem : ∀ p ∈ patterns, p ∈ labels
  endings_eq : ∀ {s w}, labels[s]? = some w →
    (t.endings s).toList = (idsOf patterns w).map fun i => ⟨i, w.length⟩
  lengths_eq : t.lengths.toList = patterns.map List.length

namespace Holds

theorem lt_size (h : t.Holds labels patterns) (hs : labels[s]? = some w) : s < t.size := by
  rw [h.size_eq]
  exact (List.getElem?_eq_some_iff.mp hs).1

theorem exists_label (h : t.Holds labels patterns) (hs : s < t.size) : ∃ w, labels[s]? = some w :=
  ⟨_, List.getElem?_eq_getElem (h.size_eq ▸ hs)⟩

theorem label_inj (h : t.Holds labels patterns) (hs : labels[s]? = some w)
    (hs' : labels[s']? = some w) : s = s' :=
  (List.getElem?_inj (List.getElem?_eq_some_iff.mp hs).1 h.nodup).mp (hs.trans hs'.symm)

theorem nil_mem (h : t.Holds labels patterns) : [] ∈ labels := List.mem_of_getElem? h.root_label

theorem not_mem (h : t.Holds labels patterns) (hs : labels[s]? = some w) (hchild : t.child? s b = none) :
    w ++ [b] ∉ labels := by
  intro hmem
  obtain ⟨c, hc⟩ := List.mem_iff_getElem?.mp hmem
  rw [(h.child_iff hs).mpr hc] at hchild
  cases hchild

theorem ne_root (h : t.Holds labels patterns) (hs : labels[s]? = some w) (hw : w ≠ []) :
    s ≠ root := by
  rintro rfl
  rw [h.root_label, Option.some.injEq] at hs
  exact hw hs.symm

theorem grown (h : t.Holds labels patterns) (hs : labels[s]? = some w)
    (hnew : w ++ [b] ∉ labels) :
    (t.grown config s b).Holds (labels ++ [w ++ [b]]) patterns := by
  have hlt : s < t.size := h.lt_size hs
  refine ⟨?_, ?_, ?_, ?_, ?_, ?_, h.ordered.grown hlt, ?_, ?_, h.lengths_eq⟩
  · simp [h.size_eq]
  · rw [← List.concat_eq_append]
    exact (List.nodup_concat _ _).mpr ⟨hnew, h.nodup⟩
  · exact getElem?_concat_eq_some_iff.mpr (Or.inl h.root_label)
  · intro u c hu
    rw [List.mem_append, List.mem_singleton] at hu ⊢
    rcases hu with hu | hu
    · exact Or.inl (h.closed u c hu)
    · rw [(List.append_inj' hu rfl).1]
      exact Or.inl (List.mem_of_getElem? hs)
  · intro i u hi
    rw [depth_grown hlt]
    rcases getElem?_concat_eq_some_iff.mp hi with hi | ⟨rfl, rfl⟩
    · rw [if_neg (Nat.ne_of_lt (h.lt_size hi)), h.depth_eq hi]
    · rw [if_pos h.size_eq.symm, h.depth_eq hs, List.length_append, List.length_singleton]
  · intro i u c d hi
    rw [child?_grown h.ordered hlt, getElem?_concat_eq_some_iff, ← h.size_eq]
    rcases getElem?_concat_eq_some_iff.mp hi with hold | ⟨rfl, rfl⟩
    · by_cases hedge : i = s ∧ c = b
      · obtain ⟨rfl, rfl⟩ := hedge
        obtain rfl : w = u := Option.some.inj (hs.symm.trans hold)
        have hnot : ¬labels[d]? = some (w ++ [c]) := fun hd => hnew (List.mem_of_getElem? hd)
        simp [hnot, eq_comm]
      · have hother : w ++ [b] ≠ u ++ [c] := fun heq => by
          obtain ⟨rfl, hbc⟩ := List.append_inj' heq rfl
          exact hedge ⟨h.label_inj hold hs, (List.singleton_inj.mp hbc).symm⟩
        rw [if_neg hedge, h.child_iff hold]
        simp [hother]
    · -- nothing leads out of the new state, since the words in the list start with words in the list
      have hother : ¬(labels.length = s ∧ c = b) := fun hedge =>
        Nat.ne_of_gt hlt (h.size_eq.trans hedge.1)
      have hnone : t.child? labels.length c = none := by
        rw [← h.size_eq, child?, getElem?_nodes_size]
      have hlonger : w ++ [b] ≠ w ++ [b] ++ [c] := fun heq => by
        simpa using congrArg List.length heq
      have hnot : ¬labels[d]? = some (w ++ [b] ++ [c]) := fun hd =>
        hnew (h.closed _ c (List.mem_of_getElem? hd))
      rw [if_neg hother, hnone]
      simp only [hnot, hlonger, and_false, or_self, reduceCtorEq]
  · intro p hp
    exact List.mem_append_left _ (h.pattern_mem p hp)
  · intro i u hi
    rw [endings_grown hlt]
    rcases getElem?_concat_eq_some_iff.mp hi with hi | ⟨rfl, rfl⟩
    · exact h.endings_eq hi
    · have hnone : idsOf patterns (w ++ [b]) = [] :=
        idsOf_eq_nil_iff.mpr fun hmem => hnew (h.pattern_mem _ hmem)
      rw [hnone, ← h.size_eq, endings, getElem?_nodes_size]
      rfl

theorem step {words : List Bytes} (h : t.Holds words.eraseDups patterns)
    (hs : words.eraseDups[s]? = some w) (hstep : t.step config s b = .ok (t', s')) :
    t'.Holds (words ++ [w ++ [b]]).eraseDups patterns ∧
      (words ++ [w ++ [b]]).eraseDups[s']? = some (w ++ [b]) := by
  rw [eraseDups_concat]
  rcases step_cases hstep with ⟨hchild, rfl⟩ | ⟨hchild, -, rfl, rfl⟩
  · have hs' := (h.child_iff hs).mp hchild
    rw [if_pos (List.mem_eraseDups.mp (List.mem_of_getElem? hs'))]
    exact ⟨h, hs'⟩
  · have hnew : w ++ [b] ∉ words.eraseDups := h.not_mem hs hchild
    rw [if_neg (fun hmem => hnew (List.mem_eraseDups.mpr hmem))]
    exact ⟨h.grown hs hnew, getElem?_concat_eq_some_iff.mpr (Or.inr ⟨h.size_eq, rfl⟩)⟩

theorem path {words : List Bytes} (h : t.Holds words.eraseDups patterns) (hroot : [] ∈ words)
    (hpath : t.path config w = .ok (t', s)) :
    t'.Holds (words ++ prefixesOf w).eraseDups patterns ∧
      (words ++ prefixesOf w).eraseDups[s]? = some w := by
  induction w using List.reverseRecOn generalizing t' s with
  | nil =>
    obtain ⟨rfl, rfl⟩ : t = t' ∧ root = s := by simpa [Trie.path, pure, Except.pure] using hpath
    rw [prefixesOf_nil, eraseDups_concat, if_pos hroot]
    exact ⟨h, h.root_label⟩
  | append_singleton w b ih =>
    obtain ⟨⟨t₁, s₁⟩, hpath, hstep⟩ := path_concat_eq_ok.mp hpath
    obtain ⟨hholds, hs⟩ := ih hpath
    rw [prefixesOf_concat, ← List.append_assoc]
    exact hholds.step hs hstep

end Holds

/-! ## One more pattern -/

theorem getElem?_nodes_record (t : Trie) (s : StateId) (length : Nat) (i : StateId) :
    (t.record s length).nodes[i]? =
      if i = s then t.nodes[i]?.map fun node =>
        { node with endings := node.endings.push ⟨t.lengths.size, length⟩ }
      else t.nodes[i]? := by
  simp only [record, Array.getElem?_modify]
  by_cases hi : i = s
  · subst hi
    rfl
  · rw [if_neg hi, if_neg (Ne.symm hi)]

theorem transitions_record (t : Trie) (s : StateId) (length : Nat) (i : StateId) :
    (t.record s length).nodes[i]?.map Node.transitions = t.nodes[i]?.map Node.transitions := by
  rw [getElem?_nodes_record]
  split_ifs
  · rw [Option.map_map]
    rfl
  · rfl

theorem child?_record (t : Trie) (s : StateId) (length : Nat) (i : StateId) (b : UInt8) :
    (t.record s length).child? i b = t.child? i b := by
  have h := transitions_record t s length i
  rw [child?, child?]
  cases hnew : (t.record s length).nodes[i]? <;> cases hold : t.nodes[i]? <;> simp_all

theorem depth_record (t : Trie) (s : StateId) (length : Nat) (i : StateId) :
    (t.record s length).depth i = t.depth i := by
  rw [depth, depth, getElem?_nodes_record]
  split_ifs
  · cases t.nodes[i]? <;> rfl
  · rfl

theorem endings_record (hs : s < t.size) (length : Nat) (i : StateId) :
    (t.record s length).endings i =
      if i = s then (t.endings i).push ⟨t.lengths.size, length⟩ else t.endings i := by
  rw [endings, endings, getElem?_nodes_record]
  by_cases hi : i = s
  · subst hi
    have hget : t.nodes[i]? = some t.nodes[i] := Array.getElem?_eq_getElem hs
    simp [hget]
  · rw [if_neg hi, if_neg hi]

namespace Holds

theorem record (h : t.Holds labels patterns) (hs : labels[s]? = some w) :
    (t.record s w.length).Holds labels (patterns ++ [w]) := by
  have hlt : s < t.size := h.lt_size hs
  have hid : t.lengths.size = patterns.length := by
    rw [← Array.length_toList, h.lengths_eq, List.length_map]
  refine ⟨?_, h.nodup, h.root_label, h.closed, ?_, ?_, ?_, ?_, ?_, ?_⟩
  · simpa [Trie.record, size] using h.size_eq
  · intro i u hi
    rw [depth_record, h.depth_eq hi]
  · intro i u b d hi
    rw [child?_record, h.child_iff hi]
  · intro i node hnode
    have hmap := transitions_record t s w.length i
    rw [hnode, Option.map_some, eq_comm, Option.map_eq_some_iff] at hmap
    obtain ⟨old, hold, heq⟩ := hmap
    exact heq ▸ h.ordered i old hold
  · intro p hp
    rcases List.mem_append.mp hp with hp | hp
    · exact h.pattern_mem p hp
    · rw [List.mem_singleton.mp hp]
      exact List.mem_of_getElem? hs
  · intro i u hi
    rw [endings_record hlt, idsOf_concat]
    by_cases heq : i = s
    · subst heq
      obtain rfl : w = u := Option.some.inj (hs.symm.trans hi)
      rw [if_pos rfl, if_pos rfl, Array.toList_push, h.endings_eq hi, hid, List.map_append,
        List.map_singleton]
    · have hne : w ≠ u := by
        rintro rfl
        exact heq (h.label_inj hi hs)
      rw [if_neg heq, if_neg hne, List.append_nil, h.endings_eq hi]
  · rw [Trie.record, Array.toList_push, h.lengths_eq, List.map_append, List.map_singleton]

theorem insert {words : List Bytes} (h : t.Holds words.eraseDups patterns) (hroot : [] ∈ words)
    (hinsert : t.insert config w = .ok t') :
    t'.Holds (words ++ prefixesOf w).eraseDups (patterns ++ [w]) := by
  obtain ⟨⟨t₁, s⟩, hpath, rfl⟩ := insert_eq_ok.mp hinsert
  obtain ⟨hholds, hs⟩ := h.path hroot hpath
  exact hholds.record hs

theorem root_only (layout : Layout) : Holds ⟨#[⟨.empty layout, #[], 0⟩], #[]⟩ [[]] [] := by
  have hlabel : ∀ {s : StateId} {w : Bytes}, [([] : Bytes)][s]? = some w → s = root ∧ w = [] := by
    intro s w hs
    cases s with
    | zero => exact ⟨rfl, (Option.some.inj hs).symm⟩
    | succ s => simp at hs
  refine ⟨rfl, List.nodup_singleton _, rfl, ?_, ?_, ?_, ?_, ?_, ?_, rfl⟩
  · intro w b hw
    simp at hw
  · intro s w hs
    obtain ⟨rfl, rfl⟩ := hlabel hs
    rfl
  · intro s w b s' hs
    obtain ⟨rfl, rfl⟩ := hlabel hs
    have hnot : ¬[([] : Bytes)][s']? = some ([] ++ [b]) := fun hs' => by simpa using (hlabel hs').2
    simpa [child?] using hnot
  · intro i node hnode
    obtain ⟨_, rfl⟩ := Array.getElem?_eq_some_iff.mp hnode
    simpa using Transitions.ordered_empty layout
  · intro p hp
    cases hp
  · intro s w hs
    obtain ⟨rfl, rfl⟩ := hlabel hs
    rfl

end Holds

theorem ofPatterns_nil (config : Builder) :
    ofPatterns config [] =
      (config.permit 0).map fun _ => ⟨#[⟨.empty config.layout, #[], 0⟩], #[]⟩ := by
  simp only [ofPatterns, addNode, empty, size, List.size_toArray, List.length_nil]
  cases config.permit 0 <;> rfl

theorem eq_of_ofPatterns_nil (h : ofPatterns config [] = .ok t) : t = ⟨#[⟨.empty config.layout, #[], 0⟩], #[]⟩ := by
  rw [ofPatterns_nil] at h
  cases hpermit : config.permit 0 with
  | error e => simp [hpermit, Except.map] at h
  | ok => simpa [hpermit, Except.map, eq_comm] using h

theorem ofPatterns_concat (config : Builder) (patterns : List Bytes) (w : Bytes) :
    ofPatterns config (patterns ++ [w]) = ofPatterns config patterns >>= fun t => t.insert config w := by
  simp only [ofPatterns, List.foldlM_append, List.foldlM_cons, List.foldlM_nil, bind_pure, bind_assoc]

/-- **The trie of a list of patterns holds their distinct prefixes**, in the order in which they first
occur. -/
theorem holds_ofPatterns (h : ofPatterns config patterns = .ok t) :
    t.Holds (prefixes patterns) patterns := by
  induction patterns using List.reverseRecOn generalizing t with
  | nil => exact eq_of_ofPatterns_nil h ▸ Holds.root_only config.layout
  | append_singleton patterns w ih =>
    rw [ofPatterns_concat, bind_eq_ok] at h
    obtain ⟨t₁, hpatterns, hinsert⟩ := h
    rw [prefixes_eq, prefixesRead_concat]
    exact (ih hpatterns).insert List.mem_cons_self hinsert

/-! ## What is kept -/

section

variable {P : Trie → Prop}

theorem keeps_step (hgrown : ∀ t s b, P t → P (t.grown config s b)) (h : P t)
    (hstep : t.step config s b = .ok (t', s')) : P t' := by
  rcases step_cases hstep with ⟨-, rfl⟩ | ⟨-, -, rfl, -⟩
  · exact h
  · exact hgrown t s b h

theorem keeps_path (hgrown : ∀ t s b, P t → P (t.grown config s b)) (h : P t)
    (hpath : t.path config w = .ok (t', s)) : P t' := by
  induction w using List.reverseRecOn generalizing t' s with
  | nil =>
    obtain ⟨rfl, -⟩ : t = t' ∧ root = s := by simpa [path, pure, Except.pure] using hpath
    exact h
  | append_singleton w b ih =>
    obtain ⟨⟨t₁, s₁⟩, hpath, hstep⟩ := path_concat_eq_ok.mp hpath
    exact keeps_step hgrown (ih hpath) hstep

/-- What holds of the root alone and is kept when a state is made and when a pattern is recorded holds of the trie
of every list of patterns. -/
theorem keeps_ofPatterns (hroot : P ⟨#[⟨.empty config.layout, #[], 0⟩], #[]⟩)
    (hgrown : ∀ t s b, P t → P (t.grown config s b)) (hrecord : ∀ t s length, P t → P (t.record s length))
    (h : ofPatterns config patterns = .ok t) : P t := by
  induction patterns using List.reverseRecOn generalizing t with
  | nil => exact eq_of_ofPatterns_nil h ▸ hroot
  | append_singleton patterns w ih =>
    rw [ofPatterns_concat, bind_eq_ok] at h
    obtain ⟨t₁, hpatterns, hinsert⟩ := h
    obtain ⟨⟨t₂, s⟩, hpath, rfl⟩ := insert_eq_ok.mp hinsert
    exact hrecord t₂ s w.length (keeps_path hgrown (ih hpatterns) hpath)

end

/-! ## Following a word -/

theorem find?_concat (t : Trie) (w : Bytes) (b : UInt8) :
    t.find? (w ++ [b]) = (t.find? w).bind fun s => t.child? s b := by
  simp [find?, List.foldlM_append]

theorem Holds.find?_eq_some_iff (h : t.Holds labels patterns) :
    t.find? w = some s ↔ labels[s]? = some w := by
  induction w using List.reverseRecOn generalizing s with
  | nil =>
    constructor
    · intro hs
      obtain rfl : root = s := Option.some.inj hs
      exact h.root_label
    · intro hs
      rw [h.label_inj hs h.root_label]
      rfl
  | append_singleton w b ih =>
    rw [find?_concat, Option.bind_eq_some_iff]
    constructor
    · rintro ⟨r, hr, hchild⟩
      exact (h.child_iff (ih.mp hr)).mp hchild
    · intro hs
      obtain ⟨r, hr⟩ := List.mem_iff_getElem?.mp (h.closed w b (List.mem_of_getElem? hs))
      exact ⟨r, ih.mpr hr, (h.child_iff hr).mpr hs⟩

theorem Holds.exists_find?_iff (h : t.Holds labels patterns) :
    (∃ s, t.find? w = some s) ↔ w ∈ labels := by
  rw [List.mem_iff_getElem?]
  exact exists_congr fun s => h.find?_eq_some_iff

/-! ## Children -/

theorem Holds.getElem?_nodes (h : t.Holds labels patterns) (hs : labels[s]? = some w) :
    ∃ node, t.nodes[s]? = some node :=
  ⟨_, Array.getElem?_eq_getElem (h.lt_size hs)⟩

theorem Holds.mem_children (h : t.Holds labels patterns) (hs : labels[s]? = some w) :
    (b, s') ∈ t.children s ↔ labels[s']? = some (w ++ [b]) := by
  obtain ⟨node, hnode⟩ := h.getElem?_nodes hs
  rw [← h.child_iff hs, children, child?, hnode]
  exact Transitions.mem_children (h.ordered s node hnode)

theorem Holds.children_ascending (h : t.Holds labels patterns) (hs : labels[s]? = some w) :
    (t.children s).Pairwise fun e f => e.1 < f.1 := by
  obtain ⟨node, hnode⟩ := h.getElem?_nodes hs
  rw [children, hnode]
  exact Transitions.children_ascending (h.ordered s node hnode)

end Trie

end AhoCorasick
