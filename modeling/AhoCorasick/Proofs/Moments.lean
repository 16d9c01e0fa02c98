import AhoCorasick.Proofs.Linking

/-!
# Linking state by state links the trie

Between two turns the pass is where `Linking.round` brings it, and within the turn of a state it has linked the
first of its children as `Linking.linkChild` does (`Moment.Sound`). All that is read in a turn is not deeper than
the state whose turn it is, and so it is linked (`Midway`). The rounds end with what `Linking.finish` answers
(`Moment.stops_start`).
-/

namespace AhoCorasick

namespace Automaton

variable {a : Automaton} {labels patterns : List Bytes} {s r t : StateId} {b : UInt8} {v : Bytes} {n : Nat}

/-! ## Falling back -/

theorem fallBack_eq_again (h : a.fallBack b s = .again r) : s ≠ root ∧ a.fail s = r := by
  rw [fallBack] at h
  split at h
  · cases h
  · split_ifs at h with hroot
    exact ⟨hroot, Round.again.inj h⟩

theorem exists_label_of_reaches (h : a.trie.Holds labels patterns) (hlinked : a.LinkedUpTo labels patterns n)
    (hs : labels[s]? = some v) (hle : v.length ≤ n) (hr : Round.Reaches (a.fallBack b) s r) :
    ∃ u, labels[r]? = some u ∧ u <:+ v := by
  refine hr.keeps (P := fun r => ∃ u, labels[r]? = some u ∧ u <:+ v) ?_ ⟨v, hs, List.suffix_refl v⟩
  rintro r r' ⟨u, hu, hsuffix⟩ hround
  obtain ⟨hne, rfl⟩ := fallBack_eq_again hround
  have hnil : u ≠ [] := by
    rintro rfl
    exact hne (h.label_inj hu h.root_label)
  obtain ⟨x, hx, hfail⟩ := (hlinked.linked hu hnil (hsuffix.length_le.trans hle)).fail
  exact ⟨x, hfail, hx.suffix.trans hsuffix⟩

/-- Falling back stops: no state has more shorter suffixes than its word has bytes. -/
theorem exists_stops_fallBack (h : a.trie.Holds labels patterns)
    (hlinked : a.LinkedUpTo labels patterns v.length) (hs : labels[s]? = some v) (b : UInt8) :
    ∃ n, n ≤ v.length + 1 ∧ Round.Stops (a.fallBack b) n s (a.next s b) := by
  obtain ⟨t, x, hrun, -, -⟩ := run_fallBack h hlinked b (v.length + 1) s v (by omega) (by omega) hs
  obtain ⟨n, hn, hstops⟩ := Round.run_eq_some_iff.mp hrun
  exact ⟨n, hn, by rwa [next, h.depth_eq hs, hrun, Option.getD_some]⟩

theorem next_eq_of_reaches (h : a.trie.Holds labels patterns)
    (hlinked : a.LinkedUpTo labels patterns v.length) (hs : labels[s]? = some v)
    (hr : Round.Reaches (a.fallBack b) s r) (hdone : a.fallBack b r = .done t) : a.next s b = t := by
  obtain ⟨n, -, hstops⟩ := exists_stops_fallBack h hlinked hs b
  obtain ⟨m, hstops'⟩ := hr.stops (.done hdone)
  exact hstops.unique hstops'

end Automaton

namespace Linking

variable {t : Trie} {labels patterns done wait : List Bytes} {l l' : Linking} {m m' : Moment} {a : Automaton}
  {queue : List StateId} {records : Array LinkRecord} {s c : StateId} {b : UInt8} {w : Bytes}
  {before left : List (UInt8 × StateId)}

theorem linkChild_eq (l : Linking) (parent : StateId) (b : UInt8) (c : StateId) :
    linkChild parent l (b, c) = (l.push c).write c (linkOf l.automaton parent b) := rfl

/-! ## Within a turn -/

/-- The children in `left` of the state `s` of the word `w` are still to be linked. -/
structure Midway (t : Trie) (labels patterns : List Bytes) (l : Linking) (s : StateId) (w : Bytes)
    (left : List (UInt8 × StateId)) : Prop where
  trie_eq : l.automaton.trie = t
  size_eq : l.automaton.links.size = t.size
  label : labels[s]? = some w
  ne_nil : w ≠ []
  left_label : ∀ e ∈ left, labels[e.2]? = some (w ++ [e.1])
  queue_label : ∀ i ∈ l.queue, ∃ u, labels[i]? = some u
  linkedUpTo : l.automaton.LinkedUpTo labels patterns w.length

theorem Sound.queue_label (h : Sound t labels patterns l done wait) :
    ∀ i ∈ l.queue, ∃ u, labels[i]? = some u := by
  intro i hi
  obtain ⟨n, rfl⟩ := List.get_of_mem hi
  exact ⟨_, h.queue_eq.get n.isLt (h.queue_eq.length_eq ▸ n.isLt)⟩

theorem Sound.midway (h : Sound t labels patterns ⟨a, s :: queue, records⟩ done (w :: wait))
    (ht : t.Holds labels patterns) (hsplit : before ++ left = t.children s)
    (hl : before.foldl (linkChild s) ⟨a, queue, records⟩ = l) : Midway t labels patterns l s w left := by
  obtain rfl := hl
  obtain rfl : a.trie = t := h.trie_eq
  obtain ⟨hs, -⟩ := List.forall₂_cons.mp h.queue_eq
  have hw : w ≠ [] := by
    rintro rfl
    exact h.frontier.nil_not_mem (by simp)
  have hchildren : ∀ e ∈ before ++ left, labels[e.2]? = some (w ++ [e.1]) := fun e he =>
    (ht.mem_children hs).mp (hsplit ▸ he)
  obtain ⟨hext, -⟩ := foldl_linkChild_spec hs hw before ⟨a, queue, records⟩ ht h.size_eq
    (h.linkedUpTo ht) fun e he => hchildren e (List.mem_append_left _ he)
  refine ⟨hext.trie_eq, hext.size_eq.trans h.size_eq, hs, hw,
    fun e he => hchildren e (List.mem_append_right _ he), fun i hi => ?_,
    hext.linkedUpTo ht.root_label (h.linkedUpTo ht)⟩
  rw [queue_foldl_linkChild, List.mem_append] at hi
  rcases hi with hi | hi
  · exact h.queue_label i (List.mem_cons_of_mem s hi)
  · obtain ⟨e, he, rfl⟩ := List.mem_map.mp hi
    exact ⟨_, hchildren e (List.mem_append_left _ he)⟩

namespace Midway

theorem holds (h : Midway t labels patterns l s w left) (ht : t.Holds labels patterns) :
    l.automaton.trie.Holds labels patterns := h.trie_eq.symm ▸ ht

theorem exists_label_fail (h : Midway t labels patterns l s w left) :
    ∃ v, LongestProperSuffix (· ∈ labels) w v ∧ labels[l.automaton.fail s]? = some v ∧
      l.automaton.LinkedUpTo labels patterns v.length := by
  obtain ⟨v, hv, hfail⟩ := (h.linkedUpTo.linked h.label h.ne_nil (Nat.le_refl _)).fail
  exact ⟨v, hv, hfail, h.linkedUpTo.mono hv.length_lt.le⟩

theorem exists_stops_fallBack (h : Midway t labels patterns l s w left) (ht : t.Holds labels patterns)
    (b : UInt8) : ∃ n, Round.Stops (l.automaton.fallBack b) n (l.automaton.fail s)
      (l.automaton.next (l.automaton.fail s) b) := by
  obtain ⟨v, -, hfail, hlinked⟩ := h.exists_label_fail
  obtain ⟨n, -, hstops⟩ := Automaton.exists_stops_fallBack (h.holds ht) hlinked hfail b
  exact ⟨n, hstops⟩

theorem next_eq_of_reaches {r fail : StateId} (h : Midway t labels patterns l s w left)
    (ht : t.Holds labels patterns)
    (hr : Round.Reaches (l.automaton.fallBack b) (l.automaton.fail s) r)
    (hdone : l.automaton.fallBack b r = .done fail) :
    l.automaton.next (l.automaton.fail s) b = fail := by
  obtain ⟨v, -, hfail, hlinked⟩ := h.exists_label_fail
  exact Automaton.next_eq_of_reaches (h.holds ht) hlinked hfail hr hdone

end Midway

/-! ## What a round does -/

namespace Moment

/-- One round that is not the last one. -/
inductive Step : Moment → Moment → Prop where
  | start {l : Linking} : Step ⟨l, .enqueue []⟩ ⟨l, .turn⟩
  | enqueue {l : Linking} {b : UInt8} {c : StateId} {children : List (UInt8 × StateId)} :
      Step ⟨l, .enqueue ((b, c) :: children)⟩ ⟨l.push c, .enqueue children⟩
  | turn {a : Automaton} {s : StateId} {queue : List StateId} {records : Array LinkRecord} :
      Step ⟨⟨a, s :: queue, records⟩, .turn⟩ ⟨⟨a, queue, records⟩, .link s (a.trie.children s)⟩
  | leave {l : Linking} {s : StateId} : Step ⟨l, .link s []⟩ ⟨l, .turn⟩
  | search {l : Linking} {s c : StateId} {b : UInt8} {left : List (UInt8 × StateId)} :
      Step ⟨l, .link s ((b, c) :: left)⟩ ⟨l.push c, .search s b c (l.automaton.fail s) left⟩
  | fallBack {l : Linking} {s c r r' : StateId} {b : UInt8} {left : List (UInt8 × StateId)} :
      l.automaton.fallBack b r = .again r' →
      Step ⟨l, .search s b c r left⟩ ⟨l, .search s b c r' left⟩
  | write {l : Linking} {s c r fail : StateId} {b : UInt8} {left : List (UInt8 × StateId)} :
      l.automaton.fallBack b r = .done fail →
      Step ⟨l, .search s b c r left⟩ ⟨l.write c ⟨fail, l.automaton.firstOutput fail⟩, .link s left⟩

theorem round_eq_again_iff : m.round = .again m' ↔ Step m m' := by
  constructor
  · intro hround
    obtain ⟨⟨a, queue, records⟩, task⟩ := m
    cases task with
    | enqueue children =>
      cases children <;> cases hround
      · exact .start
      · exact .enqueue
    | turn =>
      cases queue <;> cases hround
      exact .turn
    | link parent left =>
      cases left <;> cases hround
      · exact .leave
      · exact .search
    | search parent b c r left =>
      cases hfall : a.fallBack b r with
      | again r' =>
        simp only [round, hfall, Round.again.injEq] at hround
        exact hround ▸ .fallBack hfall
      | done fail =>
        simp only [round, hfall, Round.again.injEq] at hround
        exact hround ▸ .write hfall
  · intro hstep
    cases hstep with
    | fallBack hfall => simp [round, hfall]
    | write hfall => simp [round, hfall]
    | _ => rfl

theorem eq_of_round_done (hround : m.round = .done l) : m = ⟨l, .turn⟩ := by
  obtain ⟨⟨a, queue, records⟩, task⟩ := m
  cases task with
  | enqueue children => cases children <;> cases hround
  | turn =>
    cases queue <;> cases hround
    rfl
  | link parent left => cases left <;> cases hround
  | search parent b c r left => cases hfall : a.fallBack b r <;> simp [round, hfall] at hround

theorem Step.trie_eq (h : Step m m') : m'.progress.automaton.trie = m.progress.automaton.trie := by
  cases h <;> rfl

/-- How far the pass has come: between two turns as far as `Linking.round` comes, and within a turn as far as
linking the first children comes. -/
inductive Sound (t : Trie) (labels patterns : List Bytes) : Moment → Prop where
  | enqueue {l : Linking} {before children : List (UInt8 × StateId)} : before ++ children = t.children root →
      ⟨.unlinked t, before.map Prod.snd, #[]⟩ = l → Sound t labels patterns ⟨l, .enqueue children⟩
  | turn {l : Linking} {done wait : List Bytes} : Linking.Sound t labels patterns l done wait →
      Sound t labels patterns ⟨l, .turn⟩
  | link {a : Automaton} {l : Linking} {queue : List StateId} {records : Array LinkRecord}
      {done wait : List Bytes} {w : Bytes} {s : StateId} {before left : List (UInt8 × StateId)} :
      Linking.Sound t labels patterns ⟨a, s :: queue, records⟩ done (w :: wait) →
      before ++ left = t.children s → before.foldl (linkChild s) ⟨a, queue, records⟩ = l →
      Sound t labels patterns ⟨l, .link s left⟩
  | search {a : Automaton} {l : Linking} {queue : List StateId} {records : Array LinkRecord}
      {done wait : List Bytes} {w : Bytes} {s c r : StateId} {b : UInt8}
      {before left : List (UInt8 × StateId)} :
      Linking.Sound t labels patterns ⟨a, s :: queue, records⟩ done (w :: wait) →
      before ++ (b, c) :: left = t.children s → before.foldl (linkChild s) ⟨a, queue, records⟩ = l →
      Round.Reaches (l.automaton.fallBack b) (l.automaton.fail s) r →
      Sound t labels patterns ⟨l.push c, .search s b c r left⟩

theorem Sound.start (t : Trie) (labels patterns : List Bytes) : Sound t labels patterns (.start t) :=
  .enqueue (List.nil_append _) rfl

theorem Sound.between_turns (h : Sound t labels patterns ⟨l, .turn⟩) :
    ∃ done wait, Linking.Sound t labels patterns l done wait := by
  cases h with
  | turn h => exact ⟨_, _, h⟩

theorem Sound.step (ht : t.Holds labels patterns) (h : Sound t labels patterns m) (hstep : Step m m') :
    Sound t labels patterns m' := by
  cases hstep with
  | start =>
    cases h with
    | enqueue hsplit hl =>
      rw [List.append_nil] at hsplit
      rw [← hl, hsplit]
      exact .turn (sound_start ht)
  | @enqueue l b c children =>
    cases h with
    | @enqueue _ before _ hsplit hl =>
      have hsplit' : (before ++ [(b, c)]) ++ children = t.children root := by simpa using hsplit
      refine .enqueue hsplit' ?_
      simp [← hl, push]
  | turn =>
    obtain ⟨done, wait, h⟩ := h.between_turns
    obtain ⟨w, wait, -, -, rfl⟩ := List.forall₂_cons_left_iff.mp h.queue_eq
    rw [h.trie_eq]
    exact .link h (List.nil_append _) rfl
  | leave =>
    cases h with
    | @link a _ _ _ _ _ _ _ _ _ h hsplit hl =>
      obtain rfl : a.trie = t := h.trie_eq
      rw [List.append_nil] at hsplit
      rw [← hl, hsplit]
      exact .turn (h.round ht)
  | search =>
    cases h with
    | link h hsplit hl => exact .search h hsplit hl .refl
  | fallBack hfall =>
    cases h with
    | search h hsplit hl hr => exact .search h hsplit hl (hr.again hfall)
  | @write _ s c r fail b left hfall =>
    cases h with
    | @search _ l _ _ _ _ _ _ _ _ _ before _ h hsplit hl hr =>
      have hnext : l.automaton.next (l.automaton.fail s) b = fail :=
        (h.midway ht hsplit hl).next_eq_of_reaches ht hr hfall
      have hsplit' : (before ++ [(b, c)]) ++ left = t.children s := by simpa using hsplit
      refine .link h hsplit' ?_
      rw [List.foldl_append, hl, ← hnext]
      exact linkChild_eq l s b c

theorem sound_of_reaches (ht : t.Holds labels patterns) (h : Round.Reaches round (start t) m) :
    Sound t labels patterns m :=
  h.keeps (fun _ _ hm hround => hm.step ht (round_eq_again_iff.mp hround)) (.start t labels patterns)

/-! ## The rounds end -/

theorem reaches_fallBack {r r' : StateId} (h : Round.Reaches (l.automaton.fallBack b) r r') :
    Round.Reaches round ⟨l, .search s b c r left⟩ ⟨l, .search s b c r' left⟩ := by
  induction h with
  | refl => exact .refl
  | again _ hfall ih => exact ih.again (round_eq_again_iff.mpr (.fallBack hfall))

theorem reaches_linkChild (ht : t.Holds labels patterns)
    (h : Midway t labels patterns l s w ((b, c) :: left)) :
    Round.Reaches round ⟨l, .link s ((b, c) :: left)⟩ ⟨linkChild s l (b, c), .link s left⟩ := by
  obtain ⟨n, hstops⟩ := h.exists_stops_fallBack ht b
  obtain ⟨r, hr, hdone⟩ := hstops.exists_last
  have hsearch : Round.Reaches round ⟨l, .link s ((b, c) :: left)⟩
      ⟨l.push c, .search s b c (l.automaton.fail s) left⟩ := Round.Reaches.refl.again rfl
  exact (hsearch.trans (reaches_fallBack hr)).again (round_eq_again_iff.mpr (.write hdone))

theorem reaches_link (ht : t.Holds labels patterns)
    (h : Linking.Sound t labels patterns ⟨a, s :: queue, records⟩ done (w :: wait)) :
    ∀ before left, before ++ left = t.children s →
      Round.Reaches round ⟨before.foldl (linkChild s) ⟨a, queue, records⟩, .link s left⟩
        ⟨(t.children s).foldl (linkChild s) ⟨a, queue, records⟩, .link s []⟩ := by
  intro before left
  induction left generalizing before with
  | nil =>
    intro hsplit
    rw [← hsplit, List.append_nil]
    exact .refl
  | cons e left ih =>
    intro hsplit
    have hchild := reaches_linkChild ht (h.midway ht hsplit rfl)
    have hrest := ih (before ++ [e]) (by simpa using hsplit)
    rw [List.foldl_append] at hrest
    exact hchild.trans hrest

theorem reaches_turn (ht : t.Holds labels patterns)
    (h : Linking.Sound t labels patterns ⟨a, s :: queue, records⟩ done (w :: wait)) :
    Round.Reaches round ⟨⟨a, s :: queue, records⟩, .turn⟩
      ⟨(a.trie.children s).foldl (linkChild s) ⟨a, queue, records⟩, .turn⟩ := by
  obtain rfl : a.trie = t := h.trie_eq
  have hturn : Round.Reaches round ⟨⟨a, s :: queue, records⟩, .turn⟩
      ⟨⟨a, queue, records⟩, .link s (a.trie.children s)⟩ := Round.Reaches.refl.again rfl
  exact (hturn.trans (reaches_link ht h [] _ rfl)).again rfl

theorem stops_turn {n : Nat} (ht : t.Holds labels patterns) (hstops : Round.Stops Linking.round n l l')
    (h : Linking.Sound t labels patterns l done wait) : ∃ k, Round.Stops round k ⟨l, .turn⟩ l' := by
  induction hstops generalizing done wait with
  | @done l l' hdone =>
    obtain ⟨a, queue, records⟩ := l
    cases queue <;> cases hdone
    exact ⟨1, .done rfl⟩
  | again hagain _ ih =>
    rcases h.over_or_turn with ⟨-, hover⟩ | ⟨a, s, queue, records, w, rest, rfl, rfl, hturn⟩
    · rw [hover] at hagain
      cases hagain
    · obtain rfl := Round.again.inj (hturn.symm.trans hagain)
      obtain ⟨k, hk⟩ := ih (h.round ht)
      exact (reaches_turn ht h).stops hk

theorem reaches_enqueue (t : Trie) (before children : List (UInt8 × StateId)) :
    Round.Reaches round ⟨⟨.unlinked t, before.map Prod.snd, #[]⟩, .enqueue children⟩
      ⟨⟨.unlinked t, (before ++ children).map Prod.snd, #[]⟩, .turn⟩ := by
  induction children generalizing before with
  | nil =>
    rw [List.append_nil]
    exact Round.Reaches.refl.again rfl
  | cons e children ih =>
    have hrest := ih (before ++ [e])
    rw [List.append_assoc, List.singleton_append, List.map_append] at hrest
    exact Round.Reaches.trans (.again .refl rfl) hrest

theorem stops_start (ht : t.Holds labels patterns) : ∃ n, Round.Stops round n (start t) (finish t) := by
  obtain ⟨n, hstops⟩ := stops_finish ht
  obtain ⟨k, hk⟩ := stops_turn ht hstops (sound_start ht)
  exact (reaches_enqueue t [] (t.children root)).stops hk

end Moment

end Linking

end AhoCorasick
