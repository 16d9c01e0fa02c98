import AhoCorasick.Proofs.Agreement
import AhoCorasick.Proofs.Log
import AhoCorasick.Proofs.Stopping

/-!
# What is read while states are linked

The lists beside a moment tell what its round does (`Linking.Moment.Step.touches`): a round has no more from the links
than the lists say, and leaves all links alone but those it puts down. What is read belongs to states that have been
linked, and a linked state has one right link of each kind, so the finished automaton has the same
(`Linking.Moment.Sound.reads_final`).
-/

namespace AhoCorasick

namespace Automaton

variable {a a' : Automaton} {s t : StateId} {b : UInt8}

theorem fallBack_eq_done (htrie : a'.trie = a.trie) (h : a.fallBack b s = .done t) : a'.fallBack b s = .done t := by
  rw [fallBack] at h ⊢
  rw [htrie]
  cases hchild : a.trie.child? s b with
  | some c => simpa only [hchild] using h
  | none =>
    simp only [hchild] at h ⊢
    split_ifs at h ⊢
    exact h

theorem firstOutput_congr (htrie : a'.trie = a.trie)
    (houtput : ¬(s ≠ root ∧ (a.endings s).size ≠ 0) → a'.output s = a.output s) :
    a'.firstOutput s = a.firstOutput s := by
  have hendings : a'.endings s = a.endings s := by rw [endings, endings, htrie]
  rw [firstOutput, firstOutput, hendings]
  split_ifs with hreports
  · rfl
  · exact houtput hreports

end Automaton

namespace Linking

variable {labels patterns : List Bytes} {t : Trie} {a : Automaton} {l : Linking} {m m' : Moment} {s : StateId}
  {b : UInt8} {e : UInt8 × StateId} {children left : List (UInt8 × StateId)}

namespace Moment

/-! ## What a round reads and writes -/

theorem mem_outputsRead_search {parent c r fail : StateId} (hfall : l.automaton.fallBack b r = .done fail) :
    s ∈ outputsRead ⟨l, .search parent b c r left⟩ ↔
      s = fail ∧ ¬(fail ≠ root ∧ (l.automaton.endings fail).size ≠ 0) := by
  simp only [outputsRead, hfall]
  split_ifs with hreports
  · simp [hreports]
  · simp only [List.mem_singleton, hreports, not_false_eq_true, and_true]

/-- The lists tell what a round does. Nothing but `entered` joins the queue, and it does so at the end; what is put
down are the links of `written`, and the other links do not change. Over any automaton that has the same links where
they are read, the round does the same. -/
structure Touches (m m' : Moment) : Prop where
  queue : ∃ rest, rest <:+ m.progress.queue ∧ m'.progress.queue = rest ++ m.entered
  logged : m'.progress.logged = m.progress.logged ++ m.written
  links : ∀ s, s ∉ m.written → m'.progress.automaton.links[s]? = m.progress.automaton.links[s]?
  reads : ∀ a : Automaton, a.trie = m.progress.automaton.trie →
    (∀ s ∈ m.failsRead, a.fail s = m.progress.automaton.fail s) →
    (∀ s ∈ m.outputsRead, a.output s = m.progress.automaton.output s) →
    ∃ a', (m.withAutomaton a).round = .again (m'.withAutomaton a')

theorem Step.touches (h : Step m m') : Touches m m' := by
  cases h with
  | @start l | @leave l =>
    exact ⟨⟨l.queue, List.suffix_refl _, (List.append_nil _).symm⟩, (List.append_nil _).symm, fun _ _ => rfl,
      fun a _ _ _ => ⟨a, rfl⟩⟩
  | @enqueue l =>
    exact ⟨⟨l.queue, List.suffix_refl _, rfl⟩, (List.append_nil _).symm, fun _ _ => rfl, fun a _ _ _ => ⟨a, rfl⟩⟩
  | @turn _ s queue =>
    refine ⟨⟨queue, List.suffix_cons s queue, (List.append_nil _).symm⟩, (List.append_nil _).symm, fun _ _ => rfl,
      fun a htrie _ _ => ⟨a, ?_⟩⟩
    simp only [withAutomaton, round, htrie]
  | @search l =>
    refine ⟨⟨l.queue, List.suffix_refl _, rfl⟩, (List.append_nil _).symm, fun _ _ => rfl,
      fun a _ hfail _ => ⟨a, ?_⟩⟩
    have hparent := hfail _ List.mem_cons_self
    simp only [withAutomaton, round, push, hparent]
  | @fallBack l s c r r' b left hfall =>
    refine ⟨⟨l.queue, List.suffix_refl _, (List.append_nil _).symm⟩, ?_, fun _ _ => rfl,
      fun a htrie hfail _ => ⟨a, ?_⟩⟩
    · simp only [written, hfall, List.append_nil]
    · have hread : a.fail r = l.automaton.fail r := hfail r (by simp only [failsRead, hfall, List.mem_singleton])
      have hsame : a.fallBack b r = .again r' := by
        rw [← hfall, Automaton.fallBack, Automaton.fallBack, htrie, hread]
      simp only [withAutomaton, round, hsame]
  | @write l s c r fail b left hfall =>
    have hwritten : written ⟨l, .search s b c r left⟩ = [c] := by simp only [written, hfall]
    refine ⟨⟨l.queue, List.suffix_refl _, (List.append_nil _).symm⟩, ?_, fun i hi => ?_, fun a htrie _ houtput => ?_⟩
    · rw [hwritten]
      simp [logged, Linking.write]
    · rw [hwritten, List.mem_singleton] at hi
      exact Array.getElem?_setIfInBounds_ne (Ne.symm hi)
    · have hsame : a.fallBack b r = .done fail := Automaton.fallBack_eq_done htrie hfall
      have hfirst : a.firstOutput fail = l.automaton.firstOutput fail :=
        Automaton.firstOutput_congr htrie fun hread => houtput fail ((mem_outputsRead_search hfall).mpr ⟨rfl, hread⟩)
      refine ⟨{ a with links := a.links.setIfInBounds c ⟨fail, l.automaton.firstOutput fail⟩ }, ?_⟩
      simp only [withAutomaton, round, hsame, hfirst, Linking.write]

/-! ## What is read is final -/

theorem Sound.linked_of_enqueue (h : Sound t labels patterns ⟨l, .enqueue (e :: children)⟩)
    (ht : t.Holds labels patterns) :
    labels[e.2]? = some [e.1] ∧ l.automaton.Linked labels patterns e.2 [e.1] := by
  cases h with
  | enqueue hsplit hl =>
    have hc : labels[e.2]? = some [e.1] :=
      (ht.mem_children ht.root_label).mp (hsplit ▸ List.mem_append_right _ List.mem_cons_self)
    have hlink : (Automaton.unlinked t).links[e.2]? = some {} := by
      rw [Automaton.unlinked, Array.getElem?_replicate, if_pos (ht.lt_size hc)]
    rw [← hl]
    exact ⟨hc, linked_of_length_one ht hlink⟩

theorem Sound.exists_midway (h : Sound t labels patterns ⟨l, .link s left⟩) (ht : t.Holds labels patterns) :
    ∃ w, Midway t labels patterns l s w left := by
  cases h with
  | link h hsplit hl => exact ⟨_, h.midway ht hsplit hl⟩

theorem Sound.linked_of_failsRead (h : Sound t labels patterns m) (ht : t.Holds labels patterns)
    (hs : s ∈ m.failsRead) :
    ∃ w, labels[s]? = some w ∧ w ≠ [] ∧ m.progress.automaton.Linked labels patterns s w := by
  obtain ⟨l, task⟩ := m
  cases task with
  | turn => cases hs
  | enqueue children =>
    cases children with
    | nil => cases hs
    | cons e children =>
      obtain rfl := List.mem_singleton.mp hs
      obtain ⟨hc, hlinked⟩ := h.linked_of_enqueue ht
      exact ⟨[e.1], hc, List.cons_ne_nil _ _, hlinked⟩
  | link parent left =>
    cases left with
    | nil => cases hs
    | cons e left =>
      obtain rfl := List.mem_singleton.mp hs
      obtain ⟨w, hmidway⟩ := h.exists_midway ht
      exact ⟨w, hmidway.label, hmidway.ne_nil,
        hmidway.linkedUpTo.linked hmidway.label hmidway.ne_nil (Nat.le_refl _)⟩
  | search parent b c r left =>
    cases hfall : l.automaton.fallBack b r with
    | done fail => simp [failsRead, hfall] at hs
    | again r' =>
      obtain rfl : s = r := by simpa only [failsRead, hfall, List.mem_singleton] using hs
      obtain ⟨u, hu, hlinked⟩ := h.exists_label_search ht
      -- the search does not fall back from the root
      have hne : u ≠ [] := by
        rintro rfl
        exact (Automaton.fallBack_eq_again hfall).1 (ht.label_inj hu ht.root_label)
      exact ⟨u, hu, hne, hlinked.linked hu hne (Nat.le_refl _)⟩

theorem Sound.linkedUpTo_of_outputsRead (h : Sound t labels patterns m) (ht : t.Holds labels patterns)
    (hs : s ∈ m.outputsRead) :
    ∃ w, labels[s]? = some w ∧ m.progress.automaton.LinkedUpTo labels patterns w.length := by
  cases h with
  | enqueue | turn | link => cases hs
  | @search _ l _ _ _ _ _ _ c r b before left h hsplit hl hr =>
    cases hfall : (l.push c).automaton.fallBack b r with
    | again r' => simp [outputsRead, hfall] at hs
    | done fail =>
      obtain ⟨rfl, -⟩ := (mem_outputsRead_search hfall).mp hs
      have hmidway := h.midway ht hsplit hl
      obtain ⟨x, hx, hlabel⟩ := hmidway.exists_label_of_done ht hr hfall
      exact ⟨x, hlabel, hmidway.linkedUpTo_of_done hx⟩

theorem Sound.reads_final (h : Sound t (prefixes patterns) patterns m) (ht : t.Holds (prefixes patterns) patterns)
    (ha : a.Recognizes patterns) :
    (∀ s ∈ m.failsRead, m.progress.automaton.fail s = a.fail s) ∧
      ∀ s ∈ m.outputsRead, m.progress.automaton.output s = a.output s := by
  have hholds : m.progress.automaton.trie.Holds (prefixes patterns) patterns := (h.trie_eq ht).symm ▸ ht
  refine ⟨fun s hs => ?_, fun s hs => ?_⟩
  · obtain ⟨w, hlabel, hne, hlinked⟩ := h.linked_of_failsRead ht hs
    exact hlinked.fail_eq hholds (ha.linked hlabel hne)
  · obtain ⟨w, hlabel, hlinked⟩ := h.linkedUpTo_of_outputsRead ht hs
    exact hlinked.output_eq hholds (ha.linkedUpTo _) hlabel

end Moment

end Linking

end AhoCorasick
