import AhoCorasick.Proofs.Building
import AhoCorasick.Proofs.Places

/-!
# No state is out of range

Ids are stored in one pass and looked up in others without being checked. They need no check: at every moment of
a build the automaton is `Closed`, which means that all ids in its tables and links are those of states, and so
are the ids at hand and in the queue (`Building.bounds_of_reaches`). The same depth argument that makes linking
sound gives the assertions of a build (`Building.Asserted`). In a text the cursor and the search for its next
state come to states only (`Automaton.Visits.bounds`).
-/

namespace AhoCorasick

namespace Trie

variable {config : Builder} {t t' : Trie} {labels patterns : List Bytes} {s : StateId} {depth : Nat}

/-- Transitions lead to states, and not to the root. -/
def Closed (t : Trie) : Prop := ∀ s b c, (b, c) ∈ t.children s → c ≠ root ∧ c < t.size

theorem children_of_size_le (hs : t.size ≤ s) : t.children s = [] := by
  rw [children, Array.getElem?_eq_none hs]

theorem Holds.closed_children (h : t.Holds labels patterns) : t.Closed := by
  intro s b c hmem
  rcases Nat.lt_or_ge s t.size with hs | hs
  · obtain ⟨w, hw⟩ := h.exists_label hs
    have hc := (h.mem_children hw).mp hmem
    exact ⟨h.ne_root hc (by simp), h.lt_size hc⟩
  · rw [children_of_size_le hs] at hmem
    cases hmem

theorem children_addNode (hnode : t.addNode config depth = .ok t') (s : StateId) :
    t'.children s = t.children s := by
  obtain ⟨-, rfl⟩ := addNode_eq_ok.mp hnode
  rw [children, children, Array.getElem?_push]
  split_ifs with hs
  · rw [hs, Array.getElem?_eq_none (Nat.le_refl _)]
    exact Transitions.children_empty _
  · rfl

theorem Closed.addNode (h : t.Closed) (hnode : t.addNode config depth = .ok t') : t'.Closed := by
  intro s b c hmem
  rw [children_addNode hnode] at hmem
  obtain ⟨hroot, hlt⟩ := h s b c hmem
  rw [size_addNode hnode]
  exact ⟨hroot, Nat.lt_succ_of_lt hlt⟩

end Trie

namespace Automaton

variable {a : Automaton} {t : Trie} {patterns : List Bytes} {s o : StateId}

/-- All ids that the automaton stores are those of states, and neither a transition nor an output link leads to
the root. -/
structure Closed (a : Automaton) : Prop where
  trie : a.trie.Closed
  size_links : a.links.size = a.size
  fail : ∀ s < a.size, a.fail s < a.size
  output : ∀ s o, a.output s = some o → o ≠ root ∧ o < a.size

@[simp] theorem fail_unlinked (t : Trie) (s : StateId) : (unlinked t).fail s = root := by
  rw [Automaton.fail, unlinked, Array.getElem?_replicate]
  split_ifs <;> rfl

@[simp] theorem output_unlinked (t : Trie) (s : StateId) : (unlinked t).output s = none := by
  rw [Automaton.output, unlinked, Array.getElem?_replicate]
  split_ifs <;> rfl

theorem closed_unlinked (h : t.Closed) : (unlinked t).Closed := by
  refine ⟨h, Array.size_replicate, fun s hs => ?_, fun s o ho => ?_⟩
  · rw [fail_unlinked]
    exact Nat.zero_lt_of_lt hs
  · rw [output_unlinked] at ho
    cases ho

theorem Closed.firstOutput (h : a.Closed) (hs : s < a.size) (ho : a.firstOutput s = some o) :
    o ≠ root ∧ o < a.size := by
  rw [Automaton.firstOutput] at ho
  split_ifs at ho with hreports
  · obtain rfl : s = o := Option.some.inj ho
    exact ⟨hreports.1, hs⟩
  · exact h.output s o ho

end Automaton

namespace Reading

variable {config : Builder} {patterns : List Bytes} {r : Reading}

/-! ## While patterns are read -/

theorem Sound.bounds (h : Sound config patterns r) :
    r.trie.Closed ∧ ∀ i ∈ r.task.held, i < r.trie.size := by
  cases h with
  | makeRoot =>
    refine ⟨fun s b c hmem => ?_, fun i hi => absurd hi List.not_mem_nil⟩
    rw [Trie.children_of_size_le (Nat.zero_le s)] at hmem
    cases hmem
  | turn _ hdone =>
    exact ⟨(Trie.holds_ofPatterns hdone).closed_children, fun i hi => absurd hi List.not_mem_nil⟩
  | follow _ _ hdone hpath =>
    obtain ⟨hholds, hs⟩ := Trie.holds_path hdone hpath
    refine ⟨hholds.closed_children, fun i hi => ?_⟩
    obtain rfl := List.mem_singleton.mp hi
    exact hholds.lt_size hs
  | connect _ _ hdone hpath _ hnode =>
    obtain ⟨hholds, hs⟩ := Trie.holds_path hdone hpath
    refine ⟨hholds.closed_children.addNode hnode, fun i hi => ?_⟩
    rw [Trie.size_addNode hnode]
    rcases List.mem_pair.mp hi with rfl | rfl
    · exact Nat.lt_succ_of_lt (hholds.lt_size hs)
    · exact Nat.lt_succ_self _

end Reading

namespace Linking

variable {t : Trie} {labels patterns : List Bytes} {l : Linking} {m m' : Moment} {s c r fail : StateId}
  {b : UInt8} {w : Bytes} {left : List (UInt8 × StateId)} {link : Link}

/-! ## While states are linked -/

theorem closed_write (h : l.automaton.Closed) (hfail : link.fail < l.automaton.size)
    (houtput : ∀ o, link.output = some o → o ≠ root ∧ o < l.automaton.size) :
    (l.write c link).automaton.Closed := by
  have hlink : ∀ s : StateId, (l.write c link).automaton.links[s]? = some link ∨
      (l.write c link).automaton.links[s]? = l.automaton.links[s]? := by
    intro s
    rw [write, Array.getElem?_setIfInBounds]
    split_ifs with hs hlt
    · exact Or.inl rfl
    · exact Or.inr (by rw [← hs, Array.getElem?_eq_none (Nat.le_of_not_lt hlt)])
    · exact Or.inr rfl
  refine ⟨h.trie, (Array.size_setIfInBounds ..).trans h.size_links, fun s hs => ?_, fun s o ho => ?_⟩
  · rcases hlink s with hnew | hold
    · rw [Automaton.fail, hnew]
      exact hfail
    · rw [Automaton.fail_congr hold]
      exact h.fail s hs
  · rcases hlink s with hnew | hold
    · rw [Automaton.output, hnew] at ho
      exact houtput o ho
    · rw [Automaton.output_congr hold] at ho
      exact h.output s o ho

theorem Midway.exists_label_of_done (h : Midway t labels patterns l s w left) (ht : t.Holds labels patterns)
    (hr : Round.Reaches (l.automaton.fallBack b) (l.automaton.fail s) r)
    (hdone : l.automaton.fallBack b r = .done fail) :
    ∃ x, LongestProperSuffix (· ∈ labels) (w ++ [b]) x ∧ labels[fail]? = some x := by
  obtain ⟨v, hv, hfail, hlinked⟩ := h.exists_label_fail
  obtain ⟨x, hx, hnext⟩ := Automaton.next_spec (h.holds ht) hlinked hfail b
  rw [h.next_eq_of_reaches ht hr hdone] at hnext
  exact ⟨x, hv.append_singleton ht.closed hx, hnext⟩

theorem Midway.linkedUpTo_of_done {x : Bytes} (h : Midway t labels patterns l s w left)
    (hx : LongestProperSuffix (· ∈ labels) (w ++ [b]) x) : l.automaton.LinkedUpTo labels patterns x.length := by
  refine h.linkedUpTo.mono ?_
  have hlength := hx.length_lt
  rw [List.length_append, List.length_singleton] at hlength
  omega

namespace Moment

theorem Sound.trie_eq (h : Sound t labels patterns m) (ht : t.Holds labels patterns) :
    m.progress.automaton.trie = t := by
  cases h with
  | enqueue _ hl => exact hl ▸ rfl
  | turn h => exact h.trie_eq
  | link h hsplit hl => exact (h.midway ht hsplit hl).trie_eq
  | search h hsplit hl _ => exact (h.midway ht hsplit hl).trie_eq

theorem Sound.held_label (h : Sound t labels patterns m) (ht : t.Holds labels patterns) :
    ∀ i ∈ m.progress.queue ++ m.task.held, ∃ u, labels[i]? = some u := by
  intro i hi
  cases h with
  | enqueue hsplit hl =>
    rw [← hl, Task.held, ← List.map_append, hsplit] at hi
    obtain ⟨⟨b, c⟩, he, rfl⟩ := List.mem_map.mp hi
    exact ⟨_, (ht.mem_children ht.root_label).mp he⟩
  | turn h => exact h.queue_label i (by simpa [Task.held] using hi)
  | link h hsplit hl =>
    have hmidway := h.midway ht hsplit hl
    simp only [Task.held, List.mem_append, List.mem_cons] at hi
    rcases hi with hi | rfl | hi
    · exact hmidway.queue_label i hi
    · exact ⟨_, hmidway.label⟩
    · obtain ⟨e, he, rfl⟩ := List.mem_map.mp hi
      exact ⟨_, hmidway.left_label e he⟩
  | search h hsplit hl hr =>
    have hmidway := h.midway ht hsplit hl
    have hc := hmidway.left_label _ List.mem_cons_self
    obtain ⟨v, -, hfail, hlinked⟩ := hmidway.exists_label_fail
    obtain ⟨u, hu, -⟩ := Automaton.exists_label_of_reaches (hmidway.holds ht) hlinked hfail (Nat.le_refl _) hr
    simp only [Task.held, push, List.mem_append, List.mem_cons, List.not_mem_nil, or_false] at hi
    rcases hi with (hi | rfl) | rfl | rfl | rfl | hi
    · exact hmidway.queue_label i hi
    · exact ⟨_, hc⟩
    · exact ⟨_, hmidway.label⟩
    · exact ⟨_, hc⟩
    · exact ⟨u, hu⟩
    · obtain ⟨e, he, rfl⟩ := List.mem_map.mp hi
      exact ⟨_, hmidway.left_label e (List.mem_cons_of_mem _ he)⟩

theorem Sound.closed_step (h : Sound t labels patterns m) (ht : t.Holds labels patterns)
    (hclosed : m.progress.automaton.Closed) (hstep : Step m m') : m'.progress.automaton.Closed := by
  cases hstep with
  | write hfall =>
    cases h with
    | search h hsplit hl hr =>
      have hmidway := h.midway ht hsplit hl
      obtain ⟨x, -, hx⟩ := hmidway.exists_label_of_done ht hr hfall
      have hlt := (hmidway.holds ht).lt_size hx
      exact closed_write hclosed hlt fun o ho => hclosed.firstOutput hlt ho
  -- no other round touches the links
  | _ => exact hclosed

end Moment

end Linking

namespace Building

variable {config : Builder} {patterns : List Bytes} {m m' : Building}

/-! ## At every moment of a build -/

/-- What a build asserts, where it does so: no transition leads to the root, the children of the root fall back
to the root, and a failure link leads to a state that is not as deep. -/
def Asserted : Building → Prop
  | .reading ⟨_, _, .connect _ _ c _ _⟩ => c ≠ root
  | .linking ⟨l, .enqueue ((_, c) :: _)⟩ => l.automaton.fail c = root
  | .linking ⟨l, .search _ b c r _⟩ => ∀ fail, l.automaton.fallBack b r = .done fail →
      l.automaton.trie.depth fail < l.automaton.trie.depth c
  | _ => True

theorem Sound.asserted (h : Sound config patterns m) : m.Asserted := by
  cases h with
  | reading h =>
    cases h with
    | connect _ _ hdone hpath _ _ =>
      obtain ⟨hholds, hs⟩ := Trie.holds_path hdone hpath
      exact Nat.ne_of_gt (Nat.zero_lt_of_lt (hholds.lt_size hs))
    | _ => trivial
  | linking ht h =>
    have hholds := Trie.holds_ofPatterns ht
    cases h with
    | @enqueue l before children _ hl =>
      cases children with
      | nil => trivial
      | cons e children =>
        rw [Asserted, ← hl]
        exact Automaton.fail_unlinked _ _
    | @search _ l _ _ _ _ _ _ c _ _ _ _ h hsplit hl hr =>
      have hmidway := h.midway hholds hsplit hl
      intro fail hfall
      obtain ⟨x, hsuffix, hx⟩ := hmidway.exists_label_of_done hholds hr hfall
      have hc := hmidway.left_label _ List.mem_cons_self
      have htrie := hmidway.holds hholds
      change l.automaton.trie.depth fail < l.automaton.trie.depth c
      rw [htrie.depth_eq hx, htrie.depth_eq hc]
      exact hsuffix.length_lt
    | _ => trivial

theorem Sound.closed_step (h : Sound config patterns m) (hclosed : m.automaton.Closed)
    (hstep : Step config m m') : m'.automaton.Closed := by
  have h' := h.step hstep
  cases hstep with
  | reading hstep =>
    cases h' with
    | reading h' => exact Automaton.closed_unlinked h'.bounds.1
  | handOver hround =>
    cases h with
    | reading h => exact Automaton.closed_unlinked (Trie.holds_ofPatterns (h.answer hround)).closed_children
  | linking hstep =>
    cases h with
    | linking ht h => exact h.closed_step (Trie.holds_ofPatterns ht) hclosed hstep

theorem bounds_of_reaches (hreaches : Round.Reaches (round config) (start patterns) m) :
    m.automaton.Closed ∧ (∀ i ∈ m.held, i < m.automaton.size) ∧ m.Asserted := by
  have hstart : Reading.Sound config patterns (.start patterns) := .makeRoot
  obtain ⟨hsound, hclosed⟩ := reaches_keeps (P := fun m => m.automaton.Closed) hreaches
    (fun hsound hclosed hstep => hsound.closed_step hclosed hstep) (Automaton.closed_unlinked hstart.bounds.1)
  refine ⟨hclosed, fun i hi => ?_, hsound.asserted⟩
  cases hsound with
  | reading h => exact h.bounds.2 i hi
  | linking ht h =>
    have hholds := Trie.holds_ofPatterns ht
    obtain ⟨u, hu⟩ := h.held_label hholds i hi
    rw [automaton, Automaton.size, h.trie_eq hholds]
    exact hholds.lt_size hu

end Building

namespace Automaton

variable {config : Builder} {a : Automaton} {patterns words : List Bytes} {h : Haystack} {p p' : Place}

/-! ## While a text is searched -/

/-- The places that a cursor comes to in a text, between its answers and on the way to them. -/
inductive Visits (a : Automaton) (h : Haystack) : Place → Prop where
  | start : Visits a h {}
  | again {p p' : Place} : Visits a h p → a.advance h p = .again p' → Visits a h p'
  | answer {p p' : Place} {m : Option Match} : Visits a h p → a.advance h p = .done (m, p') → Visits a h p'

theorem Visits.stands (ha : a.Recognizes patterns) (hp : a.Visits h p) :
    ∃ words, a.Stands patterns h p words := by
  induction hp with
  | start => exact ⟨[], a.stands_start patterns h⟩
  | again _ hround ih =>
    obtain ⟨words, hp⟩ := ih
    exact hp.again ha hround
  | answer _ hround ih =>
    obtain ⟨words, hp⟩ := ih
    exact hp.answer ha hround

theorem Visits.bounds (ha : a.Recognizes patterns) (hp : a.Visits h p) :
    p.state < a.size ∧ (∀ o, p.output = some o → o < a.size) ∧
      ∀ b r, Round.Reaches (a.fallBack b) p.state r → r < a.size := by
  obtain ⟨words, hstands⟩ := hp.stands ha
  obtain ⟨v, hstate⟩ := hstands.exists_label_state ha
  refine ⟨ha.holds.lt_size hstate, fun o ho => ?_, fun b r hr => ?_⟩
  · obtain ⟨u, us, -, hs⟩ := hstands.exists_cons_of_output ho
    exact ha.holds.lt_size hs
  · obtain ⟨u, hu, -⟩ :=
      exists_label_of_reaches ha.holds (ha.linkedUpTo v.length) hstate (Nat.le_refl _) hr
    exact ha.holds.lt_size hu

theorem Visits.trans (hp : a.Visits h p) (hreach : Round.Reaches (a.advance h) p p') : a.Visits h p' :=
  hreach.keeps (P := a.Visits h) (fun _ _ => Visits.again) hp

theorem Visits.nextMatch (ha : a.Recognizes patterns) (hp : a.Visits h p) :
    a.Visits h (a.nextMatch h p).2 := by
  obtain ⟨words, hstands⟩ := hp.stands ha
  obtain ⟨n, hstops⟩ := hstands.exists_stops ha
  obtain ⟨p', hreach, hdone⟩ := hstops.exists_last
  exact (hp.trans hreach).answer hdone

theorem Visits.after (ha : a.Recognizes patterns) (n : Nat) :
    a.Visits h ((a.cursor h).after n).place := by
  induction n with
  | zero => exact .start
  | succ n ih =>
    rw [Cursor.after_succ', Cursor.next, Cursor.automaton_after, Cursor.haystack_after]
    exact ih.nextMatch ha

/-! ## Main result -/

/-- **Ids are never out of range**, not at any moment of a build, nor where a text is searched. So every look-up by an
id finds a state. A match that is given out is one of a pattern and lies within the text. -/
theorem ids_within_bounds (config : Builder) (patterns : List Bytes) :
    (∃ n, Round.Stops (Building.round config) n (.start patterns) (config.buildLogged patterns)) ∧
    (∀ m, Round.Reaches (Building.round config) (.start patterns) m →
      m.automaton.Closed ∧ (∀ i ∈ m.held, i < m.automaton.size) ∧ m.Asserted) ∧
    ∀ a, config.build patterns = .ok a → a.Closed ∧ ∀ h : Haystack,
      (∀ p, a.Visits h p → p.state < a.size ∧ (∀ o, p.output = some o → o < a.size) ∧
        ∀ b r, Round.Reaches (a.fallBack b) p.state r → r < a.size) ∧
      ∀ c, Cursor.Reached a h c → a.Visits h c.place ∧ ∀ m c', c.next = (some m, c') →
        m.pattern < a.patterns ∧ 1 ≤ m.length ∧ m.length ≤ m.stop ∧ m.stop ≤ h.size ∧
          m.start + m.length = m.stop := by
  refine ⟨Building.stops_start config patterns, fun m => Building.bounds_of_reaches, fun a hbuild => ?_⟩
  have ha := recognizes_of_build hbuild
  refine ⟨?_, fun h => ⟨fun p hp => hp.bounds ha, fun c hc => ?_⟩⟩
  · obtain ⟨m, hreaches, rfl⟩ := Building.exists_moment_of_build hbuild
    exact (Building.bounds_of_reaches hreaches).1
  · obtain ⟨n, rfl⟩ := hc.exists_after
    refine ⟨Visits.after ha n, fun m c' hnext => ?_⟩
    obtain ⟨_, hanswer, -⟩ := ((Cursor.left_cursor ha h).after n).next
    rw [hnext, Prod.mk.injEq] at hanswer
    have hmem := List.mem_of_mem_drop (List.mem_of_mem_head? hanswer.1.symm)
    obtain ⟨hpos, hle, hstop, hpattern⟩ := mem_occurrences.mp hmem
    rw [ha.patterns_eq]
    exact ⟨(List.getElem?_eq_some_iff.mp hpattern).1, hpos, hle, by simpa using hstop,
      Nat.sub_add_cancel hle⟩

/-- The twelfth moment is where the failure link of the state of "aa" is found. -/
theorem ids_within_bounds_aa :
    ∃ a l c', ({} : Builder).build [[97, 97]] = .ok a ∧
      Round.Reaches (Building.round {}) (.start [[97, 97]]) (.linking ⟨l, .search 1 97 2 0 []⟩) ∧
      l.automaton.fallBack 97 0 = .done 1 ∧ l.automaton.Closed ∧
      l.automaton.trie.depth 1 < l.automaton.trie.depth 2 ∧
      Cursor.Reached a #[97, 97] (a.cursor #[97, 97]) ∧
      (a.cursor #[97, 97]).next = (some ⟨0, 2, 2⟩, c') ∧ 0 < a.patterns ∧
      (Match.mk 0 2 2).start + 2 = 2 := by
  obtain ⟨-, hmoments, hbuilt⟩ := ids_within_bounds {} [[97, 97]]
  have hstart : Round.Reaches (Building.round {}) (.start [[97, 97]]) (.start [[97, 97]]) := .refl
  have hread := ((((((hstart.again rfl).again rfl).again rfl).again rfl).again rfl).again rfl).again rfl
  have hsearch := ((((hread.again rfl).again rfl).again rfl).again rfl).again rfl
  obtain ⟨hclosed, -, hasserted⟩ := hmoments _ hsearch
  obtain ⟨-, htext⟩ := hbuilt _ rfl
  obtain ⟨-, hmatch⟩ := (htext #[97, 97]).2 _ .start
  obtain ⟨hpattern, -, -, -, hlength⟩ := hmatch _ _ rfl
  exact ⟨_, _, _, rfl, hsearch, rfl, hclosed, hasserted 1 rfl, .start, rfl, hpattern, hlength⟩

end Automaton

end AhoCorasick
