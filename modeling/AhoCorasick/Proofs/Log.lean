import AhoCorasick.Proofs.Building

/-!
# The log tells the links

Every child that is linked is put down once, so the log follows the queue behind the children of the root
(`Linking.Recorded`): shorter words come first, and words of one length by their bytes. A state is written to only
when it is put down, so what is put down are the links that it keeps (`Linking.Faithful`). When the pass is over,
every word of two bytes or more has been put down (`Linking.mem_recorded`). The text of an entry names the state and
both links, or how much has been built (`LogEntry.message_linked`, `LogEntry.message_built`).
-/

namespace AhoCorasick

/-! ## Texts -/

theorem Literal.ofList_render_option (n : Option Nat) :
    String.ofList (Literal.option n).render = n.elim "None" fun n => "Some(" ++ toString n ++ ")" := by
  cases n with
  | none => rfl
  | some n =>
    apply String.toList_injective
    simp [Literal.option, Literal.render, Literal.renderItems, Literal.commaSeparated]

namespace LogEntry

theorem message_linked (r : LinkRecord) :
    (linked r).message = "linked state " ++ toString r.state ++ ": fail -> " ++ toString r.link.fail ++
      ", output -> " ++ r.link.output.elim "None" fun s => "Some(" ++ toString s ++ ")" := by
  rw [← Literal.ofList_render_option]
  rfl

theorem message_built (patterns states : Nat) (layout : Layout) :
    (built patterns states layout).message = "built automaton with " ++ toString patterns ++ " patterns and " ++
      toString states ++ " states (" ++ (if layout = .dense then "dense" else "sparse") ++ " transitions)" := by
  cases layout <;> rfl

end LogEntry

namespace Linking

variable {t : Trie} {labels patterns done wait recorded : List Bytes} {l : Linking} {a : Automaton}
  {queue : List StateId} {records : Array LinkRecord} {s c : StateId} {b : UInt8} {w : Bytes}

/-- The states that have been put down, in this order. -/
def logged (l : Linking) : List StateId := l.records.toList.map LinkRecord.state

/-- Every record tells the links that its state has. -/
def Faithful (l : Linking) : Prop := ∀ r ∈ l.records, l.automaton.links[r.state]? = some r.link

/-! ## One turn -/

theorem logged_linkChild (l : Linking) (s : StateId) (b : UInt8) (c : StateId) :
    (linkChild s l (b, c)).logged = l.logged ++ [c] := by
  simp [logged, linkChild]

theorem logged_foldl_linkChild (s : StateId) (children : List (UInt8 × StateId)) (l : Linking) :
    (children.foldl (linkChild s) l).logged = l.logged ++ children.map Prod.snd := by
  induction children generalizing l with
  | nil => simp
  | cons e children ih =>
    rw [List.foldl_cons, ih, logged_linkChild, List.map_cons, List.append_assoc, List.singleton_append]

theorem Faithful.linkChild (h : l.Faithful) (hc : c < l.automaton.links.size) (hnew : c ∉ l.logged)
    (s : StateId) (b : UInt8) : (linkChild s l (b, c)).Faithful := by
  obtain ⟨a, queue, records⟩ := l
  intro r hr
  have hmem : r ∈ records ∨ r = ⟨c, linkOf a s b⟩ := Array.mem_push.mp hr
  rcases hmem with hmem | rfl
  · have hne : c ≠ r.state := by
      rintro rfl
      exact hnew (List.mem_map_of_mem hmem.val)
    exact (Array.getElem?_setIfInBounds_ne hne).trans (h r hmem)
  · exact Array.getElem?_setIfInBounds_self_of_lt hc

theorem Faithful.foldl_linkChild (s : StateId) :
    ∀ (children : List (UInt8 × StateId)) (l : Linking), l.Faithful →
      (∀ e ∈ children, e.2 < l.automaton.links.size) → (l.logged ++ children.map Prod.snd).Nodup →
      (children.foldl (Linking.linkChild s) l).Faithful := by
  intro children
  induction children with
  | nil =>
    intro l h _ _
    exact h
  | cons e children ih =>
    intro l h hlt hnodup
    obtain ⟨b, c⟩ := e
    have hsize : (Linking.linkChild s l (b, c)).automaton.links.size = l.automaton.links.size :=
      Array.size_setIfInBounds
    have hnew : c ∉ l.logged := fun hmem =>
      List.disjoint_of_nodup_append hnodup hmem List.mem_cons_self
    refine ih _ (h.linkChild (hlt _ List.mem_cons_self) hnew s b) (fun e he => ?_) ?_
    · rw [hsize]
      exact hlt e (List.mem_cons_of_mem _ he)
    · rw [logged_linkChild, List.append_assoc]
      exact hnodup

/-! ## The whole pass -/

/-- The words `recorded` have been put down: those of the queue so far without those that are one byte long. -/
structure Recorded (t : Trie) (labels : List Bytes) (l : Linking) (done wait recorded : List Bytes) :
    Prop where
  words_eq : done ++ wait = childWords [] (t.children root) ++ recorded
  label_eq : l.logged.map (fun s => labels[s]?) = recorded.map some
  faithful : l.Faithful

theorem Recorded.start (t : Trie) (labels : List Bytes) :
    Recorded t labels (start t) [] (childWords [] (t.children root)) [] :=
  ⟨(List.append_nil _).symm, rfl, fun r hr => absurd hr (Array.not_mem_empty r)⟩

theorem labels_children (ht : t.Holds labels patterns) (hs : labels[s]? = some w) :
    ((t.children s).map Prod.snd).map (fun s => labels[s]?) = (childWords w (t.children s)).map some := by
  rw [childWords, List.map_map, List.map_map]
  exact List.map_congr_left fun e he => (ht.mem_children hs).mp he

theorem Recorded.round (ht : t.Holds labels patterns)
    (hsound : Sound t labels patterns ⟨a, s :: queue, records⟩ done (w :: wait))
    (h : Recorded t labels ⟨a, s :: queue, records⟩ done (w :: wait) recorded) :
    Recorded t labels ((a.trie.children s).foldl (linkChild s) ⟨a, queue, records⟩) (done ++ [w])
      (wait ++ childWords w (t.children s)) (recorded ++ childWords w (t.children s)) := by
  obtain rfl : a.trie = t := hsound.trie_eq
  obtain ⟨hs, -⟩ := List.forall₂_cons.mp hsound.queue_eq
  have hwords : done ++ [w] ++ (wait ++ childWords w (a.trie.children s)) =
      childWords [] (a.trie.children root) ++ (recorded ++ childWords w (a.trie.children s)) := by
    calc done ++ [w] ++ (wait ++ childWords w (a.trie.children s))
        = done ++ w :: wait ++ childWords w (a.trie.children s) := by simp
      _ = _ := by rw [h.words_eq, List.append_assoc]
  have hlabel : (Linking.logged ⟨a, queue, records⟩ ++ (a.trie.children s).map Prod.snd).map
      (fun s => labels[s]?) = (recorded ++ childWords w (a.trie.children s)).map some := by
    rw [List.map_append, List.map_append, labels_children ht hs]
    exact congrArg (· ++ _) h.label_eq
  -- no word has its turn or waits twice, so the children have not been put down before
  have hnodup : (recorded ++ childWords w (a.trie.children s)).Nodup := by
    have hall := (hsound.round ht).frontier.nodup
    rw [hwords] at hall
    exact hall.of_append_right
  refine ⟨hwords, by rw [logged_foldl_linkChild, hlabel], ?_⟩
  refine Faithful.foldl_linkChild s _ ⟨a, queue, records⟩ h.faithful (fun e he => ?_) ?_
  · have hchild := (ht.mem_children hs).mp he
    exact (ht.lt_size hchild).trans_eq hsound.size_eq.symm
  · refine List.Nodup.of_map (fun s => labels[s]?) ?_
    rw [hlabel]
    exact hnodup.map (Option.some_injective _)

theorem recorded_finish (ht : t.Holds labels patterns) :
    ∃ done recorded, Sound t labels patterns (finish t) done [] ∧
      Recorded t labels (finish t) done [] recorded := by
  obtain ⟨n, hstops⟩ := stops_finish ht
  obtain ⟨l, hreaches, hdone⟩ := hstops.exists_last
  obtain ⟨done, wait, recorded, hsound, hrecorded⟩ : ∃ done wait recorded,
      Sound t labels patterns l done wait ∧ Recorded t labels l done wait recorded := by
    refine hreaches.keeps (P := fun l => ∃ done wait recorded, Sound t labels patterns l done wait ∧
      Recorded t labels l done wait recorded) ?_ ⟨_, _, _, sound_start ht, .start t labels⟩
    rintro l l' ⟨done, wait, recorded, hsound, hrecorded⟩ hround
    rcases hsound.over_or_turn with ⟨-, hover⟩ | ⟨a, s, queue, records, w, rest, rfl, rfl, hturn⟩
    · rw [hover] at hround
      cases hround
    · obtain rfl := Round.again.inj (hturn.symm.trans hround)
      exact ⟨_, _, _, hsound.round ht, hrecorded.round ht hsound⟩
  rcases hsound.over_or_turn with ⟨rfl, hover⟩ | ⟨a, s, queue, records, w, rest, rfl, rfl, hturn⟩
  · obtain rfl := Round.done.inj (hover.symm.trans hdone)
    exact ⟨done, recorded, hsound, hrecorded⟩
  · rw [hturn] at hdone
    cases hdone

theorem Recorded.pairwise (h : Recorded t labels l done wait recorded) (hfrontier : Frontier labels done wait) :
    recorded.Pairwise Before := by
  have hascending := hfrontier.ascending
  rw [h.words_eq] at hascending
  exact (List.pairwise_append.mp hascending).2.1

theorem mem_recorded (ht : t.Holds labels patterns) (hfrontier : Frontier labels done [])
    (h : Recorded t labels l done [] recorded) : w ∈ recorded ↔ w ∈ labels ∧ 2 ≤ w.length := by
  have hwords := h.words_eq
  rw [List.append_nil] at hwords
  constructor
  · intro hw
    have hdone : w ∈ done ++ [] := by
      rw [List.append_nil, hwords]
      exact List.mem_append_right _ hw
    have hlabels := hfrontier.mem_labels hdone
    refine ⟨hlabels, ?_⟩
    rcases List.eq_nil_or_concat w with rfl | ⟨v, b, rfl⟩
    · exact absurd hdone hfrontier.nil_not_mem
    · rw [List.concat_eq_append] at hw hdone hlabels ⊢
      rcases ((hfrontier.mem_iff v b).mp hdone).2 with rfl | hv
      · have hchild : [] ++ [b] ∈ childWords [] (t.children root) :=
          (mem_childWords ht ht.root_label).mpr ⟨b, rfl, hlabels⟩
        have hnodup : (childWords [] (t.children root) ++ recorded).Nodup := h.words_eq ▸ hfrontier.nodup
        exact absurd hw fun hmem => List.disjoint_of_nodup_append hnodup hchild hmem
      · have hne : v ≠ [] := by
          rintro rfl
          exact hfrontier.nil_not_mem (List.mem_append_left _ hv)
        have := List.length_pos_iff.mpr hne
        rw [List.length_append, List.length_singleton]
        omega
  · rintro ⟨hlabels, hlength⟩
    have hne : w ≠ [] := by
      rintro rfl
      simp at hlength
    have hdone := hfrontier.complete ht.closed hlabels hne
    rw [hwords] at hdone
    refine (List.mem_append.mp hdone).resolve_left fun hchild => ?_
    obtain ⟨b, rfl, -⟩ := (mem_childWords ht ht.root_label).mp hchild
    simp at hlength

end Linking

namespace Builder

variable {config : Builder} {patterns : List Bytes} {x : Built} {e : BuildError} {m : Building}

theorem exists_records (h : config.buildLogged patterns = .ok x) :
    ∃ (records : List LinkRecord) (words : List Bytes),
      x.log = records.map LogEntry.linked ++ [.built patterns.length x.automaton.size config.layout] ∧
      records.map (fun r => (prefixes patterns)[r.state]?) = words.map some ∧
      (∀ w, w ∈ words ↔ w ∈ prefixes patterns ∧ 2 ≤ w.length) ∧ words.Pairwise Before ∧
      ∀ r ∈ records, x.automaton.links[r.state]? = some r.link := by
  obtain ⟨t, ht, hautomaton, hlog⟩ := buildLogged_eq_ok.mp h
  have hholds := Trie.holds_ofPatterns ht
  obtain ⟨done, recorded, hsound, hrecorded⟩ := Linking.recorded_finish hholds
  refine ⟨(Linking.finish t).records.toList, recorded, ?_, ?_, fun w => ?_, ?_, fun r hr => ?_⟩
  · rw [hlog, (Automaton.recognizes_of_buildLogged h).patterns_eq]
  · rw [← hrecorded.label_eq, Linking.logged, List.map_map]
    rfl
  · exact Linking.mem_recorded hholds hsound.frontier hrecorded
  · exact hrecorded.pairwise hsound.frontier
  · rw [hautomaton]
    exact hrecorded.faithful r (Array.mem_def.mpr hr)

theorem mem_states_iff {a : Automaton} {records : List LinkRecord} {words : List Bytes} {s : StateId}
    (ha : a.Recognizes patterns)
    (hlabels : records.map (fun r => (prefixes patterns)[r.state]?) = words.map some)
    (hwords : ∀ w, w ∈ words ↔ w ∈ prefixes patterns ∧ 2 ≤ w.length) :
    s ∈ records.map LinkRecord.state ↔ s < a.size ∧ 2 ≤ a.trie.depth s := by
  constructor
  · intro hs
    obtain ⟨r, hr, rfl⟩ := List.mem_map.mp hs
    have hmem := List.mem_map_of_mem (f := fun r => (prefixes patterns)[r.state]?) hr
    rw [hlabels] at hmem
    obtain ⟨w, hw, hlabel⟩ := List.mem_map.mp hmem
    rw [ha.holds.depth_eq hlabel.symm]
    exact ⟨ha.holds.lt_size hlabel.symm, ((hwords w).mp hw).2⟩
  · rintro ⟨hlt, hdepth⟩
    obtain ⟨w, hs⟩ := ha.holds.exists_label hlt
    rw [ha.holds.depth_eq hs] at hdepth
    have hmem := List.mem_map_of_mem (f := some) ((hwords w).mpr ⟨List.mem_of_getElem? hs, hdepth⟩)
    rw [← hlabels] at hmem
    obtain ⟨r, hr, hlabel⟩ := List.mem_map.mp hmem
    rw [ha.holds.label_inj hs hlabel]
    exact List.mem_map_of_mem hr

theorem log_eq_nil_of_error (h : config.buildLogged patterns = .error e)
    (hreaches : Round.Reaches (Building.round config) (.start patterns) m) : m.log = [] := by
  cases Building.sound_of_reaches hreaches with
  | reading _ => rfl
  | linking ht _ =>
    rw [buildLogged, ht] at h
    cases h

/-! ## Main result -/

/-- **The log lists the links.** A build that succeeds tells the links of each state of depth two or more, once: the
shallower states first and states of one depth by the bytes of their words. At the end it tells how much has been
built. Each entry has a text that names what it tells. A build that fails tells nothing. -/
theorem log_lists_links (config : Builder) (patterns : List Bytes) :
    (∀ x, config.buildLogged patterns = .ok x → ∃ (records : List LinkRecord) (words : List Bytes),
      x.log = records.map LogEntry.linked ++ [.built patterns.length x.automaton.size config.layout] ∧
      x.log.map (fun e => (e.level.name, e.message)) =
        (records.map fun r => ("TRACE", "linked state " ++ toString r.state ++ ": fail -> " ++
          toString (x.automaton.fail r.state) ++ ", output -> " ++
          (x.automaton.output r.state).elim "None" fun s => "Some(" ++ toString s ++ ")")) ++
        [("DEBUG", "built automaton with " ++ toString patterns.length ++ " patterns and " ++
          toString x.automaton.size ++ " states (" ++ (if config.layout = .dense then "dense" else "sparse") ++
          " transitions)")] ∧
      (∀ s, s ∈ records.map LinkRecord.state ↔ s < x.automaton.size ∧ 2 ≤ x.automaton.trie.depth s) ∧
      (records.map LinkRecord.state).Nodup ∧
      List.Forall₂ (fun r w => x.automaton.trie.find? w = some r.state) records words ∧
      words.Pairwise Before ∧
      ∀ r ∈ records, r.link = ⟨x.automaton.fail r.state, x.automaton.output r.state⟩) ∧
    ∀ e, config.buildLogged patterns = .error e →
      (∃ n, Round.Stops (Building.round config) n (.start patterns) (.error e)) ∧
      ∀ m, Round.Reaches (Building.round config) (.start patterns) m → m.log = [] := by
  refine ⟨fun x hx => ?_, fun e he => ⟨he ▸ Building.stops_start config patterns, fun m =>
    log_eq_nil_of_error he⟩⟩
  obtain ⟨records, words, hlog, hlabels, hwords, hordered, hlinks⟩ := exists_records hx
  have ha := Automaton.recognizes_of_buildLogged hx
  have hfinal : ∀ r ∈ records, r.link = ⟨x.automaton.fail r.state, x.automaton.output r.state⟩ := by
    intro r hr
    rw [Automaton.fail, Automaton.output, hlinks r hr]
  refine ⟨records, words, hlog, ?_, fun s => mem_states_iff ha hlabels hwords, ?_, ?_, hordered, hfinal⟩
  · rw [hlog, List.map_append, List.map_map, List.map_singleton, LogEntry.message_built]
    refine congrArg (· ++ _) (List.map_congr_left fun r hr => ?_)
    rw [Function.comp_apply, LogEntry.message_linked, hfinal r hr]
    rfl
  · refine List.Nodup.of_map (fun s => (prefixes patterns)[s]?) ?_
    have hnodup : words.Nodup := hordered.imp Before.ne
    rw [List.map_map]
    exact hlabels ▸ hnodup.map (Option.some_injective _)
  · rw [← List.forall₂_eq_eq_eq, List.forall₂_map_left_iff, List.forall₂_map_right_iff] at hlabels
    exact hlabels.imp fun r w hlabel => ha.find?_eq_some_iff.mpr hlabel

/-- The state of "ab" is the only one of depth two. -/
theorem log_lists_links_ab :
    ∃ (x : Built) (records : List LinkRecord), ({} : Builder).buildLogged [[97, 98], [98]] = .ok x ∧
      x.log = records.map LogEntry.linked ++ [.built 2 4 .sparse] ∧
      x.log = [.linked ⟨2, 3, some 3⟩, .built 2 4 .sparse] ∧
      x.log.map (fun e => (e.level.name, e.message)) =
        [("TRACE", "linked state 2: fail -> 3, output -> Some(3)"),
          ("DEBUG", "built automaton with 2 patterns and 4 states (sparse transitions)")] ∧
      (∀ s, s ∈ records.map LinkRecord.state ↔ s < x.automaton.size ∧ 2 ≤ x.automaton.trie.depth s) ∧
      (∀ r ∈ records, r.link = ⟨x.automaton.fail r.state, x.automaton.output r.state⟩) ∧
      buildLogged ⟨.sparse, some 3⟩ [[97, 98], [98]] = .error (.stateLimit 3) ∧
      ∀ m, Round.Reaches (Building.round ⟨.sparse, some 3⟩) (.start [[97, 98], [98]]) m → m.log = [] := by
  have hfails : buildLogged ⟨.sparse, some 3⟩ [[97, 98], [98]] = .error (.stateLimit 3) := rfl
  obtain ⟨records, words, hlog, htexts, hstates, -, -, -, hlinks⟩ :=
    (log_lists_links {} [[97, 98], [98]]).1 _ rfl
  have hrecords : records.map LogEntry.linked = [.linked ⟨2, 3, some 3⟩] := List.append_cancel_right hlog.symm
  obtain ⟨r, rfl, hr⟩ := List.map_eq_singleton_iff.mp hrecords
  obtain rfl := LogEntry.linked.inj hr
  exact ⟨_, _, rfl, hlog, rfl, htexts.trans rfl, hstates, hlinks, hfails, ((log_lists_links _ _).2 _ hfails).2⟩

end Builder

end AhoCorasick
