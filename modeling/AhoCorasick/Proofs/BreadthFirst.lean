import AhoCorasick.Proofs.Access

/-!
# Linking goes breadth first

At every moment of the pass the words of the queue stand next to each other in a `Frontier`, so their lengths ascend,
and by one at most (`Moment.Sound.level`). What joins the queue is first each child of the root and then each state
that is linked (`Moment.entrants`), and the states that are linked are those of the words of two bytes or more, each
once. So it can be read off the end of the pass how often a state has joined the queue and how often its links have
been put down (`stops_entered`, `stops_written`).
-/

namespace AhoCorasick

/-- Numbers that do not fall, and of which no two differ by more than one. -/
structure Level (depths : List Nat) : Prop where
  ascending : depths.Pairwise (· ≤ ·)
  close : ∀ d ∈ depths, ∀ d' ∈ depths, d' ≤ d + 1

theorem Level.of_append_left {depths depths' : List Nat} (h : Level (depths ++ depths')) : Level depths :=
  ⟨(List.pairwise_append.mp h.ascending).1, fun d hd d' hd' =>
    h.close d (List.mem_append_left _ hd) d' (List.mem_append_left _ hd')⟩

namespace Linking

variable {labels patterns done wait recorded : List Bytes} {w : Bytes} {t : Trie} {a : Automaton} {l : Linking}
  {m m' : Moment} {queue : List StateId} {records : Array LinkRecord} {s c r : StateId} {b : UInt8}
  {before left : List (UInt8 × StateId)}

/-! ## Depths along the queue -/

theorem Frontier.level (h : Frontier labels done wait) : Level (wait.map List.length) := by
  obtain ⟨-, hwait, hcross⟩ := List.pairwise_append.mp h.ascending
  refine ⟨List.pairwise_map.mpr (hwait.imp Before.length_le), fun d hd d' hd' => ?_⟩
  obtain ⟨u, hu, rfl⟩ := List.mem_map.mp hd
  obtain ⟨w, hw, rfl⟩ := List.mem_map.mp hd'
  -- the word before the last byte has had its turn, so it is not longer than `u`
  rcases List.eq_nil_or_concat w with rfl | ⟨v, b, rfl⟩
  · exact Nat.zero_le _
  · rw [List.concat_eq_append] at hw ⊢
    rw [List.length_append, List.length_singleton]
    rcases ((h.mem_iff v b).mp (List.mem_append_right _ hw)).2 with rfl | hv
    · exact Nat.le_add_left _ _
    · exact Nat.succ_le_succ (hcross v hv u hu).length_le

theorem Sound.exists_frontier (h : Sound t labels patterns ⟨a, s :: queue, records⟩ done (w :: wait))
    (ht : t.Holds labels patterns) (hsplit : before ++ left = t.children s) :
    ∃ done words rest, Frontier labels done (words ++ rest) ∧
      List.Forall₂ (fun s w => labels[s]? = some w) (queue ++ before.map Prod.snd) words := by
  obtain ⟨hs, hqueue⟩ := List.forall₂_cons.mp h.queue_eq
  have hchildren : ∀ e ∈ before, labels[e.2]? = some (w ++ [e.1]) := fun e he =>
    (ht.mem_children hs).mp (hsplit ▸ List.mem_append_left _ he)
  have hnext := h.frontier.next ht hs
  rw [← hsplit, childWords, List.map_append, ← List.append_assoc] at hnext
  exact ⟨_, _, _, hnext, List.rel_append hqueue (forall₂_childWords hchildren)⟩

namespace Moment

theorem Sound.exists_frontier (h : Sound t labels patterns m) (ht : t.Holds labels patterns) :
    ∃ done words rest, Frontier labels done (words ++ rest) ∧
      List.Forall₂ (fun s w => labels[s]? = some w) m.progress.queue words := by
  cases h with
  | @enqueue _ before _ hsplit hl =>
    have hchildren : ∀ e ∈ before, labels[e.2]? = some ([] ++ [e.1]) := fun e he =>
      (ht.mem_children ht.root_label).mp (hsplit ▸ List.mem_append_left _ he)
    have hstart := Frontier.start ht
    rw [← hsplit, childWords, List.map_append] at hstart
    rw [← hl]
    exact ⟨_, _, _, hstart, forall₂_childWords hchildren⟩
  | turn h => exact ⟨_, _, [], by simpa using h.frontier, h.queue_eq⟩
  | link h hsplit hl =>
    rw [← hl, queue_foldl_linkChild]
    exact h.exists_frontier ht hsplit
  | @search _ l queue _ _ _ _ s c _ b before left h hsplit hl _ =>
    have hsplit' : (before ++ [(b, c)]) ++ left = t.children s := by simpa using hsplit
    have hqueue : (l.push c).queue = queue ++ (before ++ [(b, c)]).map Prod.snd := by
      rw [push, ← hl, queue_foldl_linkChild, List.map_append, List.append_assoc]
      rfl
    rw [hqueue]
    exact h.exists_frontier ht hsplit'

theorem Sound.level (h : Sound t labels patterns m) (ht : t.Holds labels patterns) :
    Level (m.progress.queue.map t.depth) := by
  obtain ⟨done, words, rest, hfrontier, hqueue⟩ := h.exists_frontier ht
  have hdepths : m.progress.queue.map t.depth = words.map List.length := by
    rw [← List.forall₂_eq_eq_eq, List.forall₂_map_left_iff, List.forall₂_map_right_iff]
    exact hqueue.imp fun s w hs => ht.depth_eq hs
  have hlevel := hfrontier.level
  rw [List.map_append] at hlevel
  exact hdepths ▸ hlevel.of_append_left

theorem Sound.size_links (h : Sound t labels patterns m) (ht : t.Holds labels patterns) :
    m.progress.automaton.links.size = t.size := by
  cases h with
  | enqueue _ hl =>
    rw [← hl]
    exact Array.size_replicate
  | turn h => exact h.size_eq
  | link h hsplit hl => exact (h.midway ht hsplit hl).size_eq
  | search h hsplit hl _ => exact (h.midway ht hsplit hl).size_eq

/-! ## How often a state is touched -/

/-- The states that have joined the queue so far: the children of the root first, then each state that is linked. -/
def entrants (t : Trie) (m : Moment) : List StateId :=
  match m.task with
  | .enqueue _ => m.progress.queue
  | .search _ _ c _ _ => (t.children root).map Prod.snd ++ m.progress.logged ++ [c]
  | _ => (t.children root).map Prod.snd ++ m.progress.logged

theorem Sound.entrants_step (h : Sound t labels patterns m) (hstep : Step m m') :
    m'.entrants t = m.entrants t ++ m.entered := by
  cases hstep with
  | start =>
    cases h with
    | enqueue hsplit hl =>
      rw [List.append_nil] at hsplit
      simp [entrants, entered, logged, ← hl, hsplit]
  | enqueue => rfl
  | turn | leave | fallBack => exact (List.append_nil _).symm
  | search => rfl
  | write =>
    simp [entrants, entered, logged, Linking.write]

/-- A list that grows by what a round does tells in the end how often each state has been in it. -/
theorem stops_counted (ht : t.Holds labels patterns) (made total : Moment → List StateId)
    (hstart : total (start t) = []) (hturn : ∀ l, made ⟨l, .turn⟩ = [])
    (hstep : ∀ {m m'}, Sound t labels patterns m → Step m m' → total m' = total m ++ made m) (s : StateId) :
    ∃ k, Round.Stops (Round.counted round fun m => (made m).count s) k (start t, 0)
      (finish t, (total ⟨finish t, .turn⟩).count s) := by
  obtain ⟨k, hstops⟩ := stops_start ht
  obtain ⟨n, hcounted⟩ := hstops.counted (fun m => (made m).count s) 0
  obtain ⟨⟨m, n⟩, hreach, hdone⟩ := hcounted.exists_last
  obtain ⟨hround, rfl⟩ := Round.counted_eq_done_iff.mp hdone
  obtain ⟨-, hcount⟩ : Sound t labels patterns m ∧ n = (total m).count s := by
    refine hreach.keeps_counted (P := fun m n => Sound t labels patterns m ∧ n = (total m).count s) ?_
      ⟨.start t labels patterns, by rw [hstart, List.count_nil]⟩
    rintro m m' n ⟨hm, rfl⟩ hround
    have hnext := round_eq_again_iff.mp hround
    exact ⟨hm.step ht hnext, by rw [hstep hm hnext, List.count_append]⟩
  obtain rfl := eq_of_round_done hround
  rw [hturn, List.count_nil, Nat.add_zero, hcount] at hcounted
  exact ⟨k, hcounted⟩

end Moment

theorem count_of_labels {states : List StateId} {words : List Bytes} (ht : t.Holds labels patterns)
    (hlabels : states.map (fun s => labels[s]?) = words.map some) (hnodup : words.Nodup)
    (hs : labels[s]? = some w) : (w ∈ words → states.count s = 1) ∧ (w ∉ words → states.count s = 0) := by
  have hstates : states.Nodup := by
    refine List.Nodup.of_map (fun s => labels[s]?) ?_
    rw [hlabels]
    exact hnodup.map (Option.some_injective _)
  have hmem : s ∈ states ↔ w ∈ words := by
    rw [← List.mem_map_of_injective (Option.some_injective Bytes), ← hlabels, List.mem_map]
    constructor
    · intro h
      exact ⟨s, h, hs⟩
    · rintro ⟨i, hi, hlabel⟩
      rwa [ht.label_inj hs hlabel]
  rw [← hmem]
  exact ⟨List.count_eq_one_of_mem hstates, List.count_eq_zero_of_not_mem⟩

theorem stops_entered (ht : t.Holds labels patterns) (hs : labels[s]? = some w) :
    ∃ k, Round.Stops (Round.counted Moment.round fun m => m.entered.count s) k (.start t, 0)
      (finish t, if s = root then 0 else 1) := by
  obtain ⟨k, hstops⟩ := Moment.stops_counted ht Moment.entered (Moment.entrants t) rfl
    (fun _ => rfl) (fun hm hstep => hm.entrants_step hstep) s
  obtain ⟨done, recorded, hsound, hrecorded⟩ := recorded_finish ht
  have hfrontier := hsound.frontier
  have hwords := hrecorded.words_eq
  rw [List.append_nil] at hwords
  have hlabels : (Moment.entrants t ⟨finish t, .turn⟩).map (fun s => labels[s]?) = done.map some := by
    rw [hwords, List.map_append, ← labels_children ht ht.root_label, ← hrecorded.label_eq, ← List.map_append]
    rfl
  have hcount := count_of_labels ht hlabels (List.append_nil done ▸ hfrontier.nodup) hs
  refine ⟨k, ?_⟩
  split_ifs with hroot
  · subst hroot
    obtain rfl := Option.some.inj (ht.root_label.symm.trans hs)
    rwa [hcount.2 (by simpa using hfrontier.nil_not_mem)] at hstops
  · have hne : w ≠ [] := by
      rintro rfl
      exact hroot (ht.label_inj hs ht.root_label)
    rwa [hcount.1 (hfrontier.complete ht.closed (List.mem_of_getElem? hs) hne)] at hstops

theorem stops_written (ht : t.Holds labels patterns) (hs : labels[s]? = some w) :
    ∃ k, Round.Stops (Round.counted Moment.round fun m => m.written.count s) k (.start t, 0)
      (finish t, if 2 ≤ t.depth s then 1 else 0) := by
  obtain ⟨k, hstops⟩ := Moment.stops_counted ht Moment.written (fun m => m.progress.logged) rfl
    (fun _ => rfl) (fun _ hstep => hstep.touches.logged) s
  obtain ⟨done, recorded, hsound, hrecorded⟩ := recorded_finish ht
  have hnodup : recorded.Nodup := (hrecorded.pairwise hsound.frontier).imp Before.ne
  have hcount := count_of_labels ht hrecorded.label_eq hnodup hs
  have hmem := mem_recorded (w := w) ht hsound.frontier hrecorded
  refine ⟨k, ?_⟩
  rw [ht.depth_eq hs]
  split_ifs with hdepth
  · rwa [hcount.1 (hmem.mpr ⟨List.mem_of_getElem? hs, hdepth⟩)] at hstops
  · rwa [hcount.2 fun hw => hdepth (hmem.mp hw).2] at hstops

/-! ## Main result -/

/-- **Linking goes breadth first.** At every moment of the pass the depths along the queue do not fall and differ by
one at most, and what is read of the links is what they are in the end. In the whole pass every state but the root
joins the queue once, and the links of every state of depth two or more are put down once. Nothing of the trie changes,
and the root and its children are left without links but to the root. -/
theorem goes_breadth_first {config : Builder} (h : Trie.ofPatterns config patterns = .ok t) :
    (∀ m, Round.Reaches Moment.round (.start t) m →
      Level (m.progress.queue.map t.depth) ∧
      (∀ s ∈ m.failsRead, m.progress.automaton.fail s = (finish t).automaton.fail s) ∧
      (∀ s ∈ m.outputsRead, m.progress.automaton.output s = (finish t).automaton.output s) ∧
      m.progress.automaton.trie = t ∧ m.progress.automaton.links.size = t.size ∧
      ∀ m', m.round = .again m' → m.Touches m') ∧
    (∀ s < t.size,
      (∃ k, Round.Stops (Round.counted Moment.round fun m => m.entered.count s) k (.start t, 0)
        (finish t, if s = root then 0 else 1)) ∧
      ∃ k, Round.Stops (Round.counted Moment.round fun m => m.written.count s) k (.start t, 0)
        (finish t, if 2 ≤ t.depth s then 1 else 0)) ∧
    (finish t).automaton.trie = t ∧ (finish t).automaton.links.size = t.size ∧
    ∀ s, s = root ∨ (∃ b, t.child? root b = some s) →
      (finish t).automaton.fail s = root ∧ (finish t).automaton.output s = none := by
  have ht := Trie.holds_ofPatterns h
  have ha : (finish t).automaton.Recognizes patterns :=
    Automaton.recognizes_of_build (Builder.build_eq_ok.mpr ⟨t, h, rfl⟩)
  obtain ⟨done, hsound⟩ := sound_finish ht
  refine ⟨fun m hreach => ?_, fun s hs => ?_, hsound.trie_eq, hsound.size_eq, fun s hs => ?_⟩
  · have hm := Moment.sound_of_reaches ht hreach
    obtain ⟨hfails, houtputs⟩ := hm.reads_final ht ha
    exact ⟨hm.level ht, hfails, houtputs, hm.trie_eq ht, hm.size_links ht, fun m' hround =>
      (Moment.round_eq_again_iff.mp hround).touches⟩
  · obtain ⟨w, hlabel⟩ := ht.exists_label hs
    exact ⟨stops_entered ht hlabel, stops_written ht hlabel⟩
  · have hlink : (finish t).automaton.links[s]? = some {} := by
      rcases hs with rfl | ⟨b, hb⟩
      · exact hsound.shallow ht.root_label (Nat.zero_le 1)
      · exact hsound.shallow ((ht.child_iff ht.root_label).mp hb) (Nat.le_refl 1)
    rw [Automaton.fail, Automaton.output, hlink]
    exact ⟨rfl, rfl⟩

/-- While "aa" is linked, it waits in the queue behind "b", and the output link of "a" is read. -/
theorem goes_breadth_first_aab :
    ∃ t l, Trie.ofPatterns {} [[97, 97, 98], [98]] = .ok t ∧
      Round.Reaches Moment.round (.start t) ⟨l, .search 1 97 2 0 []⟩ ∧ l.queue = [4, 2] ∧
      Level (l.queue.map t.depth) ∧ l.automaton.output 1 = (finish t).automaton.output 1 ∧
      (∃ k, Round.Stops (Round.counted Moment.round fun m => m.entered.count 3) k (.start t, 0) (finish t, 1)) ∧
      (∃ k, Round.Stops (Round.counted Moment.round fun m => m.written.count 3) k (.start t, 0) (finish t, 1)) ∧
      (finish t).automaton.fail 4 = root := by
  obtain ⟨t, l, ht, hreach, hqueue, hread, hsize, hdepth, hchild⟩ :
      ∃ t l, Trie.ofPatterns {} [[97, 97, 98], [98]] = .ok t ∧
        Round.Reaches Moment.round (.start t) ⟨l, .search 1 97 2 0 []⟩ ∧ l.queue = [4, 2] ∧
        1 ∈ (Moment.mk l (.search 1 97 2 0 [])).outputsRead ∧ 3 < t.size ∧ t.depth 3 = 3 ∧
        t.child? root 98 = some 4 :=
    ⟨_, _, rfl, .again (.again (.again (.again (.again .refl rfl) rfl) rfl) rfl) rfl, rfl, by decide, by decide, rfl,
      rfl⟩
  obtain ⟨hmoments, hstates, -, -, hlinks⟩ := goes_breadth_first ht
  obtain ⟨hlevel, -, houtputs, -, -, -⟩ := hmoments _ hreach
  obtain ⟨hentered, hwritten⟩ := hstates 3 hsize
  rw [hdepth] at hwritten
  exact ⟨t, l, ht, hreach, hqueue, hlevel, houtputs 1 hread, hentered, hwritten, (hlinks 4 (Or.inr ⟨98, hchild⟩)).1⟩

end Linking

end AhoCorasick
