import AhoCorasick.Proofs.Places
import AhoCorasick.Proofs.Refusal

/-!
# The layout makes no difference

Two tries are `Alike` if they answer alike, whatever their tables look like. Tries that hold the same words are
(`Trie.Holds.alike`): look-ups give the words, and an ascending list of children is determined by the look-ups.
Everything that is done with a trie asks it in these ways only. So linking alike tries makes the same links and
records in the same order (`Linking.finish_alike`), and cursors over alike automata stay at the same place
(`Cursor.Alike.next`). A build makes as many states in either layout, and so is refused alike.
-/

namespace AhoCorasick

namespace Trie

/-- The tries have the same states, and every question about a state has the same answer. -/
structure Alike (t t' : Trie) : Prop where
  size_eq : t.size = t'.size
  lengths_eq : t.lengths = t'.lengths
  child?_eq : t.child? = t'.child?
  children_eq : t.children = t'.children
  endings_eq : t.endings = t'.endings
  depth_eq : t.depth = t'.depth

variable {t t' : Trie} {labels patterns : List Bytes}

theorem Holds.alike (h : t.Holds labels patterns) (h' : t'.Holds labels patterns) : t.Alike t' := by
  have hsize : t.size = t'.size := h.size_eq.trans h'.size_eq.symm
  -- beyond the last state there is nothing to ask in either trie
  have hstate : ∀ s : StateId, (∃ w, labels[s]? = some w) ∨ t.nodes[s]? = none ∧ t'.nodes[s]? = none := by
    intro s
    rcases Nat.lt_or_ge s t.size with hs | hs
    · exact Or.inl (h.exists_label hs)
    · have hs' : t'.size ≤ s := hsize ▸ hs
      exact Or.inr ⟨Array.getElem?_eq_none hs, Array.getElem?_eq_none hs'⟩
  refine ⟨hsize, ?_, ?_, ?_, ?_, ?_⟩
  · rw [← Array.toList_inj, h.lengths_eq, h'.lengths_eq]
  · funext s b
    rcases hstate s with ⟨w, hs⟩ | ⟨hnone, hnone'⟩
    · apply Option.ext
      intro c
      rw [h.child_iff hs, h'.child_iff hs]
    · rw [child?, child?, hnone, hnone']
  · funext s
    rcases hstate s with ⟨w, hs⟩ | ⟨hnone, hnone'⟩
    · refine Transitions.eq_of_ascending (h.children_ascending hs) (h'.children_ascending hs) fun e => ?_
      rw [h.mem_children hs, h'.mem_children hs]
    · rw [children, children, hnone, hnone']
  · funext s
    rcases hstate s with ⟨w, hs⟩ | ⟨hnone, hnone'⟩
    · rw [← Array.toList_inj, h.endings_eq hs, h'.endings_eq hs]
    · rw [endings, endings, hnone, hnone']
  · funext s
    rcases hstate s with ⟨w, hs⟩ | ⟨hnone, hnone'⟩
    · rw [h.depth_eq hs, h'.depth_eq hs]
    · rw [depth, depth, hnone, hnone']

end Trie

namespace Automaton

/-- The tries are alike and the links are the same. -/
structure Alike (a a' : Automaton) : Prop where
  trie : a.trie.Alike a'.trie
  links_eq : a.links = a'.links

namespace Alike

variable {a a' : Automaton}

theorem size_eq (h : a.Alike a') : a.size = a'.size := h.trie.size_eq

theorem endings_eq (h : a.Alike a') : a.endings = a'.endings := h.trie.endings_eq

theorem fail_eq (h : a.Alike a') : a.fail = a'.fail := by
  funext s
  rw [fail, fail, h.links_eq]

theorem output_eq (h : a.Alike a') : a.output = a'.output := by
  funext s
  rw [output, output, h.links_eq]

theorem next_eq (h : a.Alike a') : a.next = a'.next := by
  have hround : a.fallBack = a'.fallBack := by
    funext b s
    rw [fallBack, fallBack, h.trie.child?_eq, h.fail_eq]
  funext s b
  rw [next, next, hround, h.trie.depth_eq]

theorem firstOutput_eq (h : a.Alike a') : a.firstOutput = a'.firstOutput := by
  funext s
  rw [firstOutput, firstOutput, h.endings_eq, h.output_eq]

theorem advance_eq (h : a.Alike a') : a.advance = a'.advance := by
  funext text p
  rw [advance, advance, h.endings_eq, h.output_eq, h.next_eq, h.firstOutput_eq]

theorem nextMatch_eq (h : a.Alike a') : a.nextMatch = a'.nextMatch := by
  funext text p
  rw [nextMatch, nextMatch, h.advance_eq, reach, reach, h.size_eq]

end Alike

end Automaton

/-! ## Linking -/

namespace Linking

/-- Two passes have come as far over alike automata. -/
structure Alike (l l' : Linking) : Prop where
  automaton : l.automaton.Alike l'.automaton
  queue_eq : l.queue = l'.queue
  records_eq : l.records = l'.records

variable {l l' : Linking} {t t' : Trie}

theorem start_alike (h : t.Alike t') : (start t).Alike (start t') := by
  refine ⟨⟨h, ?_⟩, ?_, rfl⟩
  · simp only [start, Automaton.unlinked, h.size_eq]
  · simp only [start, h.children_eq]

theorem linkOf_eq {a a' : Automaton} (h : a.Alike a') : linkOf a = linkOf a' := by
  funext parent b
  rw [linkOf, linkOf, h.next_eq, h.fail_eq, h.firstOutput_eq]

theorem Alike.linkChild (h : l.Alike l') (parent : StateId) (e : UInt8 × StateId) :
    (linkChild parent l e).Alike (linkChild parent l' e) := by
  have hlink := congrFun (congrFun (linkOf_eq h.automaton) parent) e.1
  refine ⟨⟨h.automaton.trie, ?_⟩, ?_, ?_⟩
  · simp only [Linking.linkChild, hlink, h.automaton.links_eq]
  · simp only [Linking.linkChild, h.queue_eq]
  · simp only [Linking.linkChild, hlink, h.records_eq]

theorem Alike.foldl_linkChild (h : l.Alike l') (parent : StateId) (children : List (UInt8 × StateId)) :
    (children.foldl (Linking.linkChild parent) l).Alike (children.foldl (Linking.linkChild parent) l') := by
  induction children generalizing l l' with
  | nil => exact h
  | cons e children ih => exact ih (h.linkChild parent e)

theorem Alike.run_round (h : l.Alike l') (bound : Nat) :
    Option.Rel Alike (Round.run round bound l) (Round.run round bound l') := by
  induction bound generalizing l l' with
  | zero => exact .none
  | succ bound ih =>
    obtain ⟨a, queue, records⟩ := l
    obtain ⟨a', queue', records'⟩ := l'
    obtain rfl : queue = queue' := h.queue_eq
    cases queue with
    | nil => exact .some h
    | cons s queue =>
      have hrest : Alike ⟨a, queue, records⟩ ⟨a', queue, records'⟩ := ⟨h.automaton, rfl, h.records_eq⟩
      have hchildren : a.trie.children s = a'.trie.children s := by rw [h.automaton.trie.children_eq]
      simp only [Round.run, round, hchildren]
      exact ih (hrest.foldl_linkChild s _)

theorem finish_alike (h : t.Alike t') : (finish t).Alike (finish t') := by
  have hstart := start_alike h
  have hrun := hstart.run_round (t.size + 1)
  rw [finish, finish, ← h.size_eq]
  generalize Round.run round (t.size + 1) (start t) = r at hrun
  generalize Round.run round (t.size + 1) (start t') = r' at hrun
  cases hrun with
  | none => exact hstart
  | some h => exact h

end Linking

/-! ## Cursors -/

namespace Cursor

/-- Two cursors stand at the same place of a text, over alike automata. -/
structure Alike (c c' : Cursor) : Prop where
  automaton : c.automaton.Alike c'.automaton
  haystack_eq : c.haystack = c'.haystack
  place_eq : c.place = c'.place

variable {c c' : Cursor}

theorem Alike.next (h : c.Alike c') : c.next.1 = c'.next.1 ∧ c.next.2.Alike c'.next.2 := by
  have hnext : c.automaton.nextMatch c.haystack c.place = c'.automaton.nextMatch c'.haystack c'.place := by
    rw [h.automaton.nextMatch_eq, h.haystack_eq, h.place_eq]
  refine ⟨?_, h.automaton, h.haystack_eq, ?_⟩
  · simp only [Cursor.next, hnext]
  · simp only [Cursor.next, hnext]

theorem Alike.after (h : c.Alike c') (n : Nat) : (c.after n).Alike (c'.after n) := by
  induction n generalizing c c' with
  | zero => exact h
  | succ n ih => exact ih h.next.2

end Cursor

/-! ## Main result -/

namespace Builder

theorem filter_trace (records : List LinkRecord) (patterns states : Nat) (layout : Layout) :
    (records.map LogEntry.linked ++ [LogEntry.built patterns states layout]).filter (·.level = .trace) =
      records.map LogEntry.linked := by
  simp [LogEntry.level, List.filter_map, Function.comp_def]

/-- **The sparse and the dense build of the same patterns end alike.** -/
theorem layouts_agree (limit : Option Nat) (patterns : List Bytes) :
    (∃ e, buildLogged ⟨.sparse, limit⟩ patterns = .error e ∧
      buildLogged ⟨.dense, limit⟩ patterns = .error e) ∨
    ∃ x y, buildLogged ⟨.sparse, limit⟩ patterns = .ok x ∧ buildLogged ⟨.dense, limit⟩ patterns = .ok y ∧
      x.automaton.size = y.automaton.size ∧ x.automaton.trie.lengths = y.automaton.trie.lengths ∧
      (∀ s, x.automaton.fail s = y.automaton.fail s ∧ x.automaton.output s = y.automaton.output s ∧
        x.automaton.endings s = y.automaton.endings s ∧ x.automaton.trie.depth s = y.automaton.trie.depth s ∧
        x.automaton.trie.children s = y.automaton.trie.children s ∧
        ∀ b, x.automaton.trie.child? s b = y.automaton.trie.child? s b ∧
          x.automaton.next s b = y.automaton.next s b) ∧
      x.log.filter (·.level = .trace) = y.log.filter (·.level = .trace) ∧
      ∀ h n, ((x.automaton.cursor h).after n).next.1 = ((y.automaton.cursor h).after n).next.1 ∧
        ((x.automaton.cursor h).after n).place = ((y.automaton.cursor h).after n).place := by
  have hsparse := grows_buildLogged ⟨.sparse, limit⟩ patterns
  have hdense := grows_buildLogged ⟨.dense, limit⟩ patterns
  rcases hsparse.agree hdense (permit_congr rfl) with hrefused | ⟨x, y, hx, hy⟩
  · exact Or.inl hrefused
  · obtain ⟨t, ht, hxa, hxlog⟩ := buildLogged_eq_ok.mp hx
    obtain ⟨t', ht', hya, hylog⟩ := buildLogged_eq_ok.mp hy
    have hlinked := Linking.finish_alike ((Trie.holds_ofPatterns ht).alike (Trie.holds_ofPatterns ht'))
    have halike : x.automaton.Alike y.automaton := by
      rw [hxa, hya]
      exact hlinked.automaton
    refine Or.inr ⟨x, y, hx, hy, halike.size_eq, halike.trie.lengths_eq, fun s => ?_, ?_, fun h n => ?_⟩
    · rw [halike.fail_eq, halike.output_eq, halike.endings_eq, halike.trie.depth_eq,
        halike.trie.children_eq, halike.trie.child?_eq, halike.next_eq]
      exact ⟨rfl, rfl, rfl, rfl, rfl, fun b => ⟨rfl, rfl⟩⟩
    · rw [hxlog, hylog, filter_trace, filter_trace, hlinked.records_eq]
    · have hcursor : (x.automaton.cursor h).Alike (y.automaton.cursor h) := ⟨halike, rfl, rfl⟩
      have hafter := hcursor.after n
      exact ⟨hafter.next.1, hafter.place_eq⟩

end Builder

end AhoCorasick
