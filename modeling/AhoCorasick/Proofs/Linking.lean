import AhoCorasick.Proofs.Links

/-!
# Linking breadth first

The pass is followed through the words of the states: `done` are the words whose turn is over, `wait`
those in the queue. A `Frontier` says that these are exactly the words that are one byte long or one byte
longer than a word in `done`, each once, shorter words first and words of one length by their bytes. So when
a word has its turn, every word that is not longer has been linked before (`Frontier.covers`), which is what
linking its children needs. A round moves one word to `done`, so the pass ends, and then every word is in
`done` (`Frontier.complete`).
-/

namespace AhoCorasick

/-- Shorter words come first, and words of one length are ordered by their bytes. -/
abbrev Before (u w : Bytes) : Prop := List.Shortlex (· < ·) u w

theorem lex_append {u w : Bytes} (h : List.Lex (· < ·) u w) (hlength : u.length = w.length)
    (s t : Bytes) : List.Lex (· < ·) (u ++ s) (w ++ t) := by
  induction h with
  | nil => simp at hlength
  | cons _ ih => exact .cons (ih (by simpa using hlength))
  | rel hlt => exact .rel hlt

theorem Before.append_singleton {u w : Bytes} (h : Before u w) (b c : UInt8) :
    Before (u ++ [b]) (w ++ [c]) := by
  rcases List.shortlex_def.mp h with hlt | ⟨heq, hlex⟩
  · exact .of_length_lt (by simpa using hlt)
  · exact .of_lex (by simpa using heq) (lex_append hlex heq _ _)

theorem Before.length_le {u w : Bytes} (h : Before u w) : u.length ≤ w.length := by
  rcases List.shortlex_def.mp h with hlt | ⟨heq, -⟩
  · exact hlt.le
  · exact heq.le

theorem Before.ne {u w : Bytes} (h : Before u w) : u ≠ w := by
  rintro rfl
  exact asymm h h

namespace Linking

/-- The words whose turn is over and the words in the queue, while the states `labels` are linked. -/
structure Frontier (labels done wait : List Bytes) : Prop where
  ascending : (done ++ wait).Pairwise Before
  nil_not_mem : [] ∉ done ++ wait
  mem_iff : ∀ w b, w ++ [b] ∈ done ++ wait ↔ w ++ [b] ∈ labels ∧ (w = [] ∨ w ∈ done)

/-- The words of the children of the state of `w`. -/
def childWords (w : Bytes) (children : List (UInt8 × StateId)) : List Bytes :=
  children.map fun e => w ++ [e.1]

variable {labels patterns done wait : List Bytes} {t : Trie} {s : StateId} {u w : Bytes} {b : UInt8}

theorem mem_childWords (h : t.Holds labels patterns) (hs : labels[s]? = some w) :
    u ∈ childWords w (t.children s) ↔ ∃ b, u = w ++ [b] ∧ w ++ [b] ∈ labels := by
  unfold childWords
  rw [List.mem_map]
  constructor
  · rintro ⟨⟨b, c⟩, hmem, rfl⟩
    exact ⟨b, rfl, List.mem_of_getElem? ((h.mem_children hs).mp hmem)⟩
  · rintro ⟨b, rfl, hmem⟩
    obtain ⟨c, hc⟩ := List.mem_iff_getElem?.mp hmem
    exact ⟨(b, c), (h.mem_children hs).mpr hc, rfl⟩

theorem forall₂_childWords {children : List (UInt8 × StateId)}
    (h : ∀ e ∈ children, labels[e.2]? = some (w ++ [e.1])) :
    List.Forall₂ (fun s w => labels[s]? = some w) (children.map Prod.snd) (childWords w children) := by
  unfold childWords
  rw [List.forall₂_map_left_iff, List.forall₂_map_right_iff, List.forall₂_same]
  exact h

theorem childWords_ascending (h : t.Holds labels patterns) (hs : labels[s]? = some w) :
    (childWords w (t.children s)).Pairwise Before := by
  unfold childWords
  rw [List.pairwise_map]
  refine (h.children_ascending hs).imp fun hlt => List.Shortlex.append_left ?_ w
  exact (List.shortlex_singleton_iff _ _).mpr hlt

namespace Frontier

theorem start (h : t.Holds labels patterns) : Frontier labels [] (childWords [] (t.children root)) := by
  refine ⟨childWords_ascending h h.root_label, ?_, fun w b => ?_⟩
  · rw [List.nil_append, mem_childWords h h.root_label]
    rintro ⟨b, hb, -⟩
    cases hb
  · rw [List.nil_append, mem_childWords h h.root_label]
    constructor
    · rintro ⟨c, heq, hmem⟩
      obtain ⟨rfl, hbc⟩ := List.append_inj' heq rfl
      rw [hbc]
      exact ⟨hmem, Or.inl rfl⟩
    · rintro ⟨hmem, rfl | hw⟩
      · exact ⟨b, rfl, hmem⟩
      · cases hw

theorem mem_labels (h : Frontier labels done wait) (hu : u ∈ done ++ wait) : u ∈ labels := by
  rcases List.eq_nil_or_concat u with rfl | ⟨v, b, rfl⟩
  · exact absurd hu h.nil_not_mem
  · rw [List.concat_eq_append] at hu ⊢
    exact ((h.mem_iff v b).mp hu).1

theorem next (h : Frontier labels done (w :: wait)) (ht : t.Holds labels patterns)
    (hs : labels[s]? = some w) :
    Frontier labels (done ++ [w]) (wait ++ childWords w (t.children s)) := by
  have happend : done ++ [w] ++ (wait ++ childWords w (t.children s)) =
      done ++ w :: wait ++ childWords w (t.children s) := by simp
  refine ⟨?_, ?_, fun u b => ?_⟩
  · rw [happend]
    refine List.pairwise_append.mpr ⟨h.ascending, childWords_ascending ht hs, fun u hu x hx => ?_⟩
    obtain ⟨b, rfl, -⟩ := (mem_childWords ht hs).mp hx
    rcases List.eq_nil_or_concat u with rfl | ⟨v, c, rfl⟩
    · exact absurd hu h.nil_not_mem
    · rw [List.concat_eq_append] at hu ⊢
      rcases ((h.mem_iff v c).mp hu).2 with rfl | hv
      · have hw : w ≠ [] := by
          rintro rfl
          exact h.nil_not_mem (by simp)
        refine .of_length_lt ?_
        have := List.length_pos_iff.mpr hw
        simp only [List.nil_append, List.length_singleton, List.length_append]
        omega
      · have hbefore : Before v w :=
          (List.pairwise_append.mp h.ascending).2.2 v hv w List.mem_cons_self
        exact hbefore.append_singleton c b
  · rw [happend, List.mem_append, not_or, mem_childWords ht hs]
    refine ⟨h.nil_not_mem, ?_⟩
    rintro ⟨b, hb, -⟩
    simp at hb
  · rw [happend, List.mem_append, h.mem_iff, mem_childWords ht hs, List.mem_append,
      List.mem_singleton]
    constructor
    · rintro (⟨hmem, hu⟩ | ⟨c, heq, hmem⟩)
      · exact ⟨hmem, hu.imp_right Or.inl⟩
      · obtain ⟨rfl, hbc⟩ := List.append_inj' heq rfl
        rw [hbc]
        exact ⟨hmem, Or.inr (Or.inr rfl)⟩
    · rintro ⟨hmem, hu | hu | rfl⟩
      · exact Or.inl ⟨hmem, Or.inl hu⟩
      · exact Or.inl ⟨hmem, Or.inr hu⟩
      · exact Or.inr ⟨b, rfl, hmem⟩

/-- Every word that is not longer than the next one in the queue is in the queue or has had its turn. -/
theorem covers (h : Frontier labels done (w :: wait)) (hclosed : PrefixClosed (· ∈ labels))
    (hu : u ∈ labels) (hne : u ≠ []) (hle : u.length ≤ w.length) : u ∈ done ++ w :: wait := by
  induction u using List.reverseRecOn with
  | nil => exact absurd rfl hne
  | append_singleton u b ih =>
    rw [h.mem_iff]
    refine ⟨hu, ?_⟩
    by_cases hnil : u = []
    · exact Or.inl hnil
    · have hshort : u.length < w.length := by
        rw [List.length_append, List.length_singleton] at hle
        omega
      have hmem := ih (hclosed u b hu) hnil hshort.le
      refine Or.inr ((List.mem_append.mp hmem).resolve_right fun hwait => ?_)
      -- words behind `w` in the queue are not shorter than `w`
      rcases List.mem_cons.mp hwait with rfl | hwait
      · exact Nat.lt_irrefl _ hshort
      · have hbefore : Before w u :=
          (List.pairwise_cons.mp (List.pairwise_append.mp h.ascending).2.1).1 u hwait
        exact Nat.lt_irrefl _ (Nat.lt_of_lt_of_le hshort hbefore.length_le)

theorem complete (h : Frontier labels done []) (hclosed : PrefixClosed (· ∈ labels))
    (hu : u ∈ labels) (hne : u ≠ []) : u ∈ done := by
  induction u using List.reverseRecOn with
  | nil => exact absurd rfl hne
  | append_singleton u b ih =>
    rw [← List.append_nil done, h.mem_iff]
    refine ⟨hu, ?_⟩
    by_cases hnil : u = []
    · exact Or.inl hnil
    · exact Or.inr (ih (hclosed u b hu) hnil)

theorem nodup (h : Frontier labels done wait) : (done ++ wait).Nodup := h.ascending.imp Before.ne

theorem length_le (h : Frontier labels done wait) : done.length ≤ labels.length := by
  have hsubset : done ⊆ labels := fun u hu => h.mem_labels (List.mem_append_left _ hu)
  exact (h.nodup.of_append_left.subperm hsubset).length_le

end Frontier

/-! ## The links that a round makes -/

/-- What linking more states leaves alone: the trie, the links of the root and of states up to depth
`n`, and whatever is linked. -/
structure Extends (labels patterns : List Bytes) (n : Nat) (a a' : Automaton) : Prop where
  trie_eq : a'.trie = a.trie
  size_eq : a'.links.size = a.links.size
  link_eq : ∀ {i : StateId} {u : Bytes}, labels[i]? = some u → u.length ≤ n →
    a'.links[i]? = a.links[i]?
  linked : ∀ {i : StateId} {u : Bytes}, labels[i]? = some u → a.Linked labels patterns i u →
    a'.Linked labels patterns i u

theorem Extends.refl (n : Nat) (a : Automaton) : Extends labels patterns n a a :=
  ⟨rfl, rfl, fun _ _ => rfl, fun _ h => h⟩

theorem Extends.trans {n : Nat} {a a' a'' : Automaton} (h : Extends labels patterns n a a')
    (h' : Extends labels patterns n a' a'') : Extends labels patterns n a a'' :=
  ⟨h'.trie_eq.trans h.trie_eq, h'.size_eq.trans h.size_eq,
    fun hi hle => (h'.link_eq hi hle).trans (h.link_eq hi hle),
    fun hi hlinked => h'.linked hi (h.linked hi hlinked)⟩

theorem Extends.linkedUpTo {n : Nat} {a a' : Automaton} (h : Extends labels patterns n a a')
    (hroot : labels[root]? = some []) (hlinked : a.LinkedUpTo labels patterns n) :
    a'.LinkedUpTo labels patterns n := by
  refine ⟨?_, fun hs hw hle => h.linked hs (hlinked.linked hs hw hle)⟩
  have hlink := h.link_eq hroot (Nat.zero_le n)
  rw [Automaton.output, hlink]
  exact hlinked.root_output

end Linking

namespace Automaton

variable {a a' : Automaton} {labels patterns : List Bytes} {i : StateId} {u : Bytes}

theorem fail_congr (h : a'.links[i]? = a.links[i]?) : a'.fail i = a.fail i := by
  rw [fail, fail, h]

theorem output_congr (h : a'.links[i]? = a.links[i]?) : a'.output i = a.output i := by
  rw [output, output, h]

theorem Linked.congr (h : a.Linked labels patterns i u) (hlink : a'.links[i]? = a.links[i]?) :
    a'.Linked labels patterns i u :=
  ⟨(fail_congr hlink).symm ▸ h.fail, (output_congr hlink).symm ▸ h.output⟩

end Automaton

namespace Linking

variable {labels patterns done wait : List Bytes} {l : Linking} {s c : StateId} {w : Bytes}
  {b : UInt8}

theorem linkChild_spec (h : l.automaton.trie.Holds labels patterns)
    (hsize : l.automaton.links.size = l.automaton.size)
    (hlinked : l.automaton.LinkedUpTo labels patterns w.length) (hs : labels[s]? = some w)
    (hw : w ≠ []) (hc : labels[c]? = some (w ++ [b])) :
    Extends labels patterns w.length l.automaton (linkChild s l (b, c)).automaton ∧
      (linkChild s l (b, c)).automaton.Linked labels patterns c (w ++ [b]) := by
  obtain ⟨a, queue, records⟩ := l
  dsimp only at h hsize hlinked
  have hlt : c < a.links.size := hsize.symm ▸ h.lt_size hc
  have hself : (linkChild s ⟨a, queue, records⟩ (b, c)).automaton.links[c]? = some (linkOf a s b) := by
    simp [linkChild, hlt]
  have hother : ∀ i, i ≠ c →
      (linkChild s ⟨a, queue, records⟩ (b, c)).automaton.links[i]? = a.links[i]? := fun i hi => by
    simp [linkChild, Ne.symm hi]
  obtain ⟨hfail, houtput⟩ := linkOf_spec (b := b) h hlinked hs hw
  have hnew : (linkChild s ⟨a, queue, records⟩ (b, c)).automaton.Linked labels patterns c (w ++ [b]) := by
    refine ⟨?_, fun {o} => ?_⟩
    · rw [Automaton.fail, hself]
      exact hfail
    · rw [Automaton.output, hself]
      exact houtput o
  refine ⟨⟨rfl, by simp [linkChild], fun {i u} hi hle => hother i ?_, fun {i u} hi hlinked => ?_⟩, hnew⟩
  · rintro rfl
    rw [hc, Option.some.injEq] at hi
    rw [← hi, List.length_append, List.length_singleton] at hle
    omega
  · by_cases heq : i = c
    · subst heq
      obtain rfl : w ++ [b] = u := Option.some.inj (hc.symm.trans hi)
      exact hnew
    · exact hlinked.congr (hother i heq)

theorem queue_foldl_linkChild (s : StateId) (children : List (UInt8 × StateId)) (l : Linking) :
    (children.foldl (linkChild s) l).queue = l.queue ++ children.map Prod.snd := by
  induction children generalizing l with
  | nil => simp
  | cons e children ih =>
    rw [List.foldl_cons, ih]
    simp [linkChild]

theorem foldl_linkChild_spec (hs : labels[s]? = some w) (hw : w ≠ []) :
    ∀ (children : List (UInt8 × StateId)) (l : Linking), l.automaton.trie.Holds labels patterns →
      l.automaton.links.size = l.automaton.size →
      l.automaton.LinkedUpTo labels patterns w.length →
      (∀ e ∈ children, labels[e.2]? = some (w ++ [e.1])) →
      Extends labels patterns w.length l.automaton (children.foldl (linkChild s) l).automaton ∧
        ∀ e ∈ children, (children.foldl (linkChild s) l).automaton.Linked labels patterns e.2
          (w ++ [e.1]) := by
  intro children
  induction children with
  | nil =>
    intro l _ _ _ _
    exact ⟨.refl _ _, fun e he => absurd he List.not_mem_nil⟩
  | cons e children ih =>
    intro l h hsize hlinked hchildren
    obtain ⟨b, c⟩ := e
    have hc : labels[c]? = some (w ++ [b]) := hchildren (b, c) List.mem_cons_self
    obtain ⟨hext, hnew⟩ := linkChild_spec h hsize hlinked hs hw hc
    have hsize' : (linkChild s l (b, c)).automaton.links.size = (linkChild s l (b, c)).automaton.size := by
      rw [hext.size_eq, hsize, Automaton.size, Automaton.size, hext.trie_eq]
    obtain ⟨hext', hrest⟩ := ih (linkChild s l (b, c)) (hext.trie_eq ▸ h) hsize'
      (hext.linkedUpTo h.root_label hlinked) fun e he => hchildren e (List.mem_cons_of_mem _ he)
    rw [List.foldl_cons]
    refine ⟨hext.trans hext', fun e he => ?_⟩
    rcases List.mem_cons.mp he with rfl | he
    · exact hext'.linked hc hnew
    · exact hrest e he

/-! ## The invariant of the pass -/

/-- The pass over the trie `t` after the words `done` have had their turn: the words in `wait` are in
the queue, all of them are linked, and the root and its children have the links of the start. -/
structure Sound (t : Trie) (labels patterns : List Bytes) (l : Linking) (done wait : List Bytes) :
    Prop where
  trie_eq : l.automaton.trie = t
  size_eq : l.automaton.links.size = t.size
  queue_eq : List.Forall₂ (fun s w => labels[s]? = some w) l.queue wait
  frontier : Frontier labels done wait
  linked : ∀ {s w}, labels[s]? = some w → w ∈ done ++ wait → l.automaton.Linked labels patterns s w
  shallow : ∀ {s : StateId} {w : Bytes}, labels[s]? = some w → w.length ≤ 1 →
    l.automaton.links[s]? = some {}

variable {t : Trie} {q : List StateId}

theorem Sound.linkedUpTo (h : Sound t labels patterns l done (w :: wait))
    (ht : t.Holds labels patterns) : l.automaton.LinkedUpTo labels patterns w.length := by
  refine ⟨?_, fun hs hu hle => h.linked hs ?_⟩
  · rw [Automaton.output, h.shallow ht.root_label (Nat.zero_le 1)]
  · exact h.frontier.covers ht.closed (List.mem_of_getElem? hs) hu hle

theorem linked_of_length_one {a : Automaton} (ht : a.trie.Holds labels patterns)
    (hlink : a.links[s]? = some {}) : a.Linked labels patterns s [b] := by
  refine ⟨⟨[], ?_, ?_⟩, fun {o} => ?_⟩
  · exact longestProperSuffix_cons.mpr (longestSuffix_self ht.nil_mem)
  · rw [Automaton.fail, hlink]
    exact ht.root_label
  · rw [Automaton.output, hlink]
    constructor
    · intro h
      cases h
    · rintro ⟨v, hv, -⟩
      have hnil := (longestProperSuffix_cons.mp hv).suffix
      exact absurd (List.suffix_nil.mp hnil) hv.holds.1

theorem sound_start (ht : t.Holds labels patterns) :
    Sound t labels patterns (start t) [] (childWords [] (t.children root)) := by
  have hchildren : ∀ e ∈ t.children root, labels[e.2]? = some ([] ++ [e.1]) := fun e he =>
    (ht.mem_children ht.root_label).mp he
  have hlinks : ∀ {s : StateId} {w : Bytes}, labels[s]? = some w →
      (start t).automaton.links[s]? = some {} := fun {s w} hs => by
    have hlt : s < t.size := ht.lt_size hs
    simp [start, Automaton.unlinked, hlt]
  refine ⟨rfl, by simp [start, Automaton.unlinked], forall₂_childWords hchildren, .start ht,
    fun {s w} hs hw => ?_, fun hs _ => hlinks hs⟩
  · rw [List.nil_append, mem_childWords ht ht.root_label] at hw
    obtain ⟨b, rfl, -⟩ := hw
    exact linked_of_length_one ht (hlinks hs)

theorem Sound.round {a : Automaton} {records : Array LinkRecord} (ht : t.Holds labels patterns)
    (h : Sound t labels patterns ⟨a, s :: q, records⟩ done (w :: wait)) :
    Sound t labels patterns ((a.trie.children s).foldl (linkChild s) ⟨a, q, records⟩) (done ++ [w])
      (wait ++ childWords w (t.children s)) := by
  obtain rfl : a.trie = t := h.trie_eq
  obtain ⟨hs, hqueue⟩ := List.forall₂_cons.mp h.queue_eq
  have hw : w ≠ [] := by
    rintro rfl
    exact h.frontier.nil_not_mem (by simp)
  have hchildren : ∀ e ∈ a.trie.children s, labels[e.2]? = some (w ++ [e.1]) := fun e he =>
    (ht.mem_children hs).mp he
  obtain ⟨hext, hnew⟩ := foldl_linkChild_spec hs hw (a.trie.children s) ⟨a, q, records⟩ ht
    h.size_eq (h.linkedUpTo ht) hchildren
  refine ⟨hext.trie_eq, hext.size_eq.trans h.size_eq, ?_, h.frontier.next ht hs,
    fun {i u} hi hu => ?_, fun {i u} hi hle => ?_⟩
  · rw [queue_foldl_linkChild]
    exact List.rel_append hqueue (forall₂_childWords hchildren)
  · have hmem : u ∈ done ++ w :: wait ∨ u ∈ childWords w (a.trie.children s) := by
      simpa [or_assoc] using hu
    rcases hmem with hmem | hmem
    · exact hext.linked hi (h.linked hi hmem)
    · obtain ⟨b, rfl, -⟩ := (mem_childWords ht hs).mp hmem
      exact hnew (b, i) ((ht.mem_children hs).mpr hi)
  · rw [hext.link_eq hi (hle.trans (List.length_pos_iff.mpr hw)), h.shallow hi hle]

theorem Sound.over_or_turn (h : Sound t labels patterns l done wait) :
    wait = [] ∧ Linking.round l = .done l ∨
      ∃ a s queue records w rest, l = ⟨a, s :: queue, records⟩ ∧ wait = w :: rest ∧
        Linking.round l = .again ((a.trie.children s).foldl (linkChild s) ⟨a, queue, records⟩) := by
  obtain ⟨a, queue, records⟩ := l
  cases queue with
  | nil => exact Or.inl ⟨List.forall₂_nil_left_iff.mp h.queue_eq, rfl⟩
  | cons s queue =>
    obtain ⟨w, rest, -, -, hwait⟩ := List.forall₂_cons_left_iff.mp h.queue_eq
    exact Or.inr ⟨a, s, queue, records, w, rest, rfl, hwait, rfl⟩

theorem run_round (ht : t.Holds labels patterns) :
    ∀ (bound : Nat) (l : Linking) (done wait : List Bytes), labels.length < done.length + bound →
      Sound t labels patterns l done wait →
      ∃ l' done', Round.run Linking.round bound l = some l' ∧ Sound t labels patterns l' done' [] := by
  intro bound
  induction bound with
  | zero =>
    intro l done wait hlt h
    have := h.frontier.length_le
    omega
  | succ bound ih =>
    intro l done wait hlt h
    rcases h.over_or_turn with ⟨rfl, hover⟩ | ⟨a, s, queue, records, w, rest, rfl, rfl, hturn⟩
    · exact ⟨l, done, by rw [Round.run, hover], h⟩
    · obtain ⟨l', done', hrun, h'⟩ := ih _ (done ++ [w]) _
        (by rw [List.length_append, List.length_singleton]; omega) (h.round ht)
      refine ⟨l', done', ?_, h'⟩
      rw [Round.run, hturn]
      exact hrun

theorem run_start (ht : t.Holds labels patterns) :
    ∃ done, Round.run Linking.round (t.size + 1) (start t) = some (finish t) ∧
      Sound t labels patterns (finish t) done [] := by
  obtain ⟨l, done, hrun, hsound⟩ := run_round ht (t.size + 1) (start t) [] _
    (by rw [ht.size_eq, List.length_nil]; omega) (sound_start ht)
  have hfinish : finish t = l := by rw [finish, hrun, Option.getD_some]
  rw [hfinish]
  exact ⟨done, hrun, hsound⟩

/-- **The pass links every state.** -/
theorem sound_finish (ht : t.Holds labels patterns) :
    ∃ done, Sound t labels patterns (finish t) done [] := by
  obtain ⟨done, -, hsound⟩ := run_start ht
  exact ⟨done, hsound⟩

theorem stops_finish (ht : t.Holds labels patterns) :
    ∃ n, Round.Stops Linking.round n (start t) (finish t) := by
  obtain ⟨_, hrun, -⟩ := run_start ht
  obtain ⟨n, -, hstops⟩ := Round.run_eq_some_iff.mp hrun
  exact ⟨n, hstops⟩

end Linking

end AhoCorasick
