import AhoCorasick.Proofs.Bounds

/-!
# Links are made as they are followed

Links are made with an automaton of which only a part has been linked. Two automata over the same words that are linked
up to some length agree on the states of the words up to this length (`Automaton.LinkedUpTo.next_eq`,
`Automaton.LinkedUpTo.firstOutput_eq`), since a linked state has one right link of each kind. The states that a search
for a failure link comes to have been linked before, so what is put down is what the finished automaton answers
(`Linking.Midway.link_eq`).
-/

namespace AhoCorasick

variable {config : Builder} {labels patterns : List Bytes} {s c : StateId} {b : UInt8} {w : Bytes}

namespace Automaton

variable {a a' : Automaton}

/-! ## Automata over the same words -/

theorem Linked.fail_eq (ht : a.trie.Holds labels patterns) (h : a.Linked labels patterns s w)
    (h' : a'.Linked labels patterns s w) : a.fail s = a'.fail s := by
  obtain ⟨v, hv, hfail⟩ := h.fail
  obtain ⟨v', hv', hfail'⟩ := h'.fail
  obtain rfl := hv.unique hv'
  exact ht.label_inj hfail hfail'

theorem Linked.output_eq (h : a.Linked labels patterns s w) (h' : a'.Linked labels patterns s w) :
    a.output s = a'.output s := by
  apply Option.ext
  intro o
  rw [h.output, h'.output]

theorem LinkedUpTo.output_eq (ht : a.trie.Holds labels patterns) (h : a.LinkedUpTo labels patterns w.length)
    (h' : a'.LinkedUpTo labels patterns w.length) (hs : labels[s]? = some w) : a.output s = a'.output s := by
  by_cases hw : w = []
  · subst hw
    rw [ht.label_inj hs ht.root_label, h.root_output, h'.root_output]
  · exact (h.linked hs hw (Nat.le_refl _)).output_eq (h'.linked hs hw (Nat.le_refl _))

theorem LinkedUpTo.next_eq (ht : a.trie.Holds labels patterns) (ht' : a'.trie.Holds labels patterns)
    (h : a.LinkedUpTo labels patterns w.length) (h' : a'.LinkedUpTo labels patterns w.length)
    (hs : labels[s]? = some w) (b : UInt8) : a.next s b = a'.next s b := by
  obtain ⟨x, hx, hnext⟩ := next_spec ht h hs b
  obtain ⟨x', hx', hnext'⟩ := next_spec ht' h' hs b
  obtain rfl := hx.unique hx'
  exact ht.label_inj hnext hnext'

theorem LinkedUpTo.firstOutput_eq (ht : a.trie.Holds labels patterns) (ht' : a'.trie.Holds labels patterns)
    (h : a.LinkedUpTo labels patterns w.length) (h' : a'.LinkedUpTo labels patterns w.length)
    (hs : labels[s]? = some w) : a.firstOutput s = a'.firstOutput s := by
  apply Option.ext
  intro o
  rw [firstOutput_spec ht h hs, firstOutput_spec ht' h' hs]

theorem Recognizes.link_eq (ha : a.Recognizes patterns) (hs : (prefixes patterns)[s]? = some w) (hw : w ≠ [])
    (hc : (prefixes patterns)[c]? = some (w ++ [b])) :
    a.fail c = a.next (a.fail s) b ∧ a.output c = a.firstOutput (a.fail c) := by
  have hlinked := ha.linked hc (List.append_ne_nil_of_right_ne_nil w (List.cons_ne_nil b []))
  obtain ⟨⟨x, hx, hnext⟩, houtput⟩ := Linking.linkOf_spec (b := b) ha.holds (ha.linkedUpTo _) hs hw
  obtain ⟨x', hx', hfail⟩ := hlinked.fail
  obtain rfl := hx.unique hx'
  have hsame : a.fail c = a.next (a.fail s) b := ha.holds.label_inj hfail hnext
  refine ⟨hsame, ?_⟩
  rw [hsame]
  apply Option.ext
  intro o
  rw [hlinked.output]
  exact (houtput o).symm

end Automaton

/-! ## While links are made -/

namespace Linking

variable {t : Trie} {a : Automaton} {l : Linking} {r fail : StateId} {left : List (UInt8 × StateId)}

theorem Midway.link_eq (h : Midway t (prefixes patterns) patterns l s w ((b, c) :: left))
    (ht : t.Holds (prefixes patterns) patterns) (ha : a.Recognizes patterns)
    (hr : Round.Reaches (l.automaton.fallBack b) (l.automaton.fail s) r)
    (hdone : l.automaton.fallBack b r = .done fail) :
    l.automaton.fail s = a.fail s ∧ fail = a.next (a.fail s) b ∧ l.automaton.firstOutput fail = a.firstOutput fail := by
  have hholds := h.holds ht
  obtain ⟨v, hv, hstart, hlinked⟩ := h.exists_label_fail
  obtain ⟨x, hx, hfail⟩ := h.exists_label_of_done ht hr hdone
  have hparent : l.automaton.fail s = a.fail s :=
    (h.linkedUpTo.linked h.label h.ne_nil (Nat.le_refl _)).fail_eq hholds (ha.linked h.label h.ne_nil)
  refine ⟨hparent, ?_, (h.linkedUpTo_of_done hx).firstOutput_eq hholds ha.holds (ha.linkedUpTo _) hfail⟩
  rw [← hparent, ← hlinked.next_eq hholds ha.holds (ha.linkedUpTo _) hstart b]
  exact (h.next_eq_of_reaches ht hr hdone).symm

end Linking

namespace Automaton

variable {a : Automaton}

/-! ## Main result -/

/-- **Links are made as they are followed.** The links of a state of depth two or more are what the automaton answers
for its parent. They were put down while only a part of the states had been linked: wherever the pass ends a search for
a failure link, it has started where the parent falls back to in the finished automaton, and what it puts down is what
the finished automaton answers, and what it holds. -/
theorem links_are_answers (h : config.build patterns = .ok a) :
    (∀ s b c, a.trie.child? s b = some c → 2 ≤ a.trie.depth c →
      a.fail c = a.next (a.fail s) b ∧ a.output c = a.firstOutput (a.fail c)) ∧
    ∀ l s b c r children fail,
      Round.Reaches Linking.Moment.round (.start a.trie) ⟨l, .search s b c r children⟩ →
      l.automaton.fallBack b r = .done fail →
      l.automaton.fail s = a.fail s ∧ fail = a.next (a.fail s) b ∧
        l.automaton.firstOutput fail = a.firstOutput fail ∧
        a.fail c = fail ∧ a.output c = l.automaton.firstOutput fail := by
  have ha := recognizes_of_build h
  refine ⟨fun s b c hchild hdepth => ?_, fun l s b c r children fail hreach hdone => ?_⟩
  · obtain ⟨w, hlabel⟩ := ha.holds.exists_label (Trie.lt_size_of_child? hchild)
    have hc := (ha.holds.child_iff hlabel).mp hchild
    rw [ha.holds.depth_eq hc] at hdepth
    refine ha.link_eq hlabel ?_ hc
    rintro rfl
    simp at hdepth
  · cases Linking.Moment.sound_of_reaches ha.holds hreach with
    | search hsound hsplit hl hr =>
      have hmidway := hsound.midway ha.holds hsplit hl
      obtain ⟨hparent, hfail, houtput⟩ := hmidway.link_eq ha.holds ha hr hdone
      have hc := hmidway.left_label _ List.mem_cons_self
      obtain ⟨hlink, hfirst⟩ := ha.link_eq hmidway.label hmidway.ne_nil hc
      have hsame : a.fail c = fail := hlink.trans hfail.symm
      rw [hsame] at hfirst
      exact ⟨hparent, hfail, houtput, hsame, hfirst.trans houtput.symm⟩

/-- "ab" is linked to "b" before "abc" is linked. -/
theorem links_are_answers_abc :
    ∃ a l, ({} : Builder).build [[97, 98, 99], [98]] = .ok a ∧ a.trie.child? 1 98 = some 2 ∧ a.trie.depth 2 = 2 ∧
      Round.Reaches Linking.Moment.round (.start a.trie) ⟨l, .search 1 98 2 0 []⟩ ∧
      l.automaton.fallBack 98 0 = .done 4 ∧ a.fail 2 = a.next (a.fail 1) 98 ∧
      a.output 2 = a.firstOutput (a.fail 2) ∧ 4 = a.next (a.fail 1) 98 ∧ a.fail 2 = 4 ∧
      a.output 2 = l.automaton.firstOutput 4 := by
  obtain ⟨a, l, hbuild, hchild, hdepth, hreach, hdone⟩ :
      ∃ a l, ({} : Builder).build [[97, 98, 99], [98]] = .ok a ∧ a.trie.child? 1 98 = some 2 ∧
        a.trie.depth 2 = 2 ∧ Round.Reaches Linking.Moment.round (.start a.trie) ⟨l, .search 1 98 2 0 []⟩ ∧
        l.automaton.fallBack 98 0 = .done 4 :=
    ⟨_, _, rfl, rfl, rfl, .again (.again (.again (.again (.again .refl rfl) rfl) rfl) rfl) rfl, rfl⟩
  obtain ⟨hlinks, hstored⟩ := links_are_answers hbuild
  obtain ⟨hfail, houtput⟩ := hlinks 1 98 2 hchild hdepth.ge
  obtain ⟨-, hnext, -, hlink, hfirst⟩ := hstored l 1 98 2 0 [] 4 hreach hdone
  exact ⟨a, l, hbuild, hchild, hdepth, hreach, hdone, hfail, houtput, hnext, hlink, hfirst⟩

end Automaton

end AhoCorasick
