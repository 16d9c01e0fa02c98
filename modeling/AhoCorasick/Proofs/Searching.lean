import AhoCorasick.Proofs.Stopping

/-!
# A scan takes linear time

One byte may bring the automaton along as many failure links as it is deep. But each link makes it less deep and
each byte makes it deeper by one at most, so the links that have been followed and the depth together never exceed
the bytes that have been consumed (`Searching.links_add_depth_le`). The body of the loop is begun once for each
byte, once for each match and once for each output state that is left. A state is left only after it has given out
a match (`Searching.turns_le`).
-/

namespace AhoCorasick

namespace Searching

variable {a : Automaton} {patterns words : List Bytes} {h : Haystack} {m m' : Searching} {p p' : Place}
  {found : List Match} {s s' o : StateId} {b : UInt8} {n k : Nat} {e : Match}

/-! ## What a round does -/

/-- One round that is not the last one. -/
inductive Step (a : Automaton) (h : Haystack) : Searching → Searching → Prop where
  | give {p : Place} {found : List Match} {s : StateId} {e : Pattern} :
      p.output = some s → (a.endings s)[p.index]? = some e →
      Step a h ⟨p, found, .turn⟩
        ⟨{ p with index := p.index + 1 }, found ++ [.ofPattern e p.consumed], .turn⟩
  | follow {p : Place} {found : List Match} {s : StateId} :
      p.output = some s → (a.endings s)[p.index]? = none →
      Step a h ⟨p, found, .turn⟩ ⟨{ p with output := a.output s, index := 0 }, found, .turn⟩
  | read {p : Place} {found : List Match} {b : UInt8} : p.output = none → h[p.consumed]? = some b →
      Step a h ⟨p, found, .turn⟩ ⟨p, found, .search b p.state⟩
  | fallBack {p : Place} {found : List Match} {b : UInt8} {s s' : StateId} : a.fallBack b s = .again s' →
      Step a h ⟨p, found, .search b s⟩ ⟨p, found, .search b s'⟩
  | arrive {p : Place} {found : List Match} {b : UInt8} {s s' : StateId} : a.fallBack b s = .done s' →
      Step a h ⟨p, found, .search b s⟩ ⟨⟨p.consumed + 1, s', a.firstOutput s', 0⟩, found, .turn⟩

theorem round_eq_again_iff : m.round a h = .again m' ↔ Step a h m m' := by
  constructor
  · intro hround
    obtain ⟨p, found, task⟩ := m
    cases task with
    | turn =>
      rw [round] at hround
      split at hround
      · next s hout =>
        split at hround
        · next e he =>
          cases hround
          exact .give hout he
        · next he =>
          cases hround
          exact .follow hout he
      · next hout =>
        split at hround
        · next b hb =>
          cases hround
          exact .read hout hb
        · cases hround
    | search b s =>
      rw [round] at hround
      split at hround
      · next s' hfall =>
        cases hround
        exact .fallBack hfall
      · next s' hfall =>
        cases hround
        exact .arrive hfall
  · intro hstep
    cases hstep with
    | give hout he => simp [round, hout, he]
    | follow hout he => simp [round, hout, he]
    | read hout hb => simp [round, hout, hb]
    | fallBack hfall => simp [round, hfall]
    | arrive hfall => simp [round, hfall]

theorem eq_of_round_done (hround : m.round a h = .done (found, p)) : m = ⟨p, found, .turn⟩ := by
  obtain ⟨p, found, task⟩ := m
  cases task with
  | turn =>
    rw [round] at hround
    split at hround
    · split at hround <;> cases hround
    · split at hround
      · cases hround
      · cases hround
        rfl
  | search b s =>
    rw [round] at hround
    split at hround <;> cases hround

/-! ## What the rounds keep -/

/-- Between two turns a cursor stands in the text, and in the search for a transition the state at hand is one that
falling back leads to. -/
inductive Sound (a : Automaton) (patterns : List Bytes) (h : Haystack) : Searching → Prop where
  | turn {p : Place} {found : List Match} {words : List Bytes} : a.Stands patterns h p words →
      Sound a patterns h ⟨p, found, .turn⟩
  | search {p : Place} {found : List Match} {b : UInt8} {s : StateId} : a.Stands patterns h p [] →
      h[p.consumed]? = some b → Round.Reaches (a.fallBack b) p.state s →
      Sound a patterns h ⟨p, found, .search b s⟩

theorem sound_start (a : Automaton) (patterns : List Bytes) (h : Haystack) : Sound a patterns h .start :=
  .turn (a.stands_start patterns h)

theorem advance_of_arrive (ha : a.Recognizes patterns) (hp : a.Stands patterns h p [])
    (hb : h[p.consumed]? = some b) (hr : Round.Reaches (a.fallBack b) p.state s)
    (hdone : a.fallBack b s = .done s') :
    a.advance h p = .again ⟨p.consumed + 1, s', a.firstOutput s', 0⟩ := by
  obtain ⟨v, hv⟩ := hp.exists_label_state ha
  have hnext := Automaton.next_eq_of_reaches ha.holds (ha.linkedUpTo v.length) hv hr hdone
  simp [Automaton.advance, hp.output_eq_none, hb, hnext]

theorem Sound.step (ha : a.Recognizes patterns) (hm : Sound a patterns h m) (hstep : Step a h m m') :
    Sound a patterns h m' := by
  cases hstep with
  | @give p found s e hout he =>
    cases hm with
    | turn hp =>
      have hround : a.advance h p = .done (some (.ofPattern e p.consumed), { p with index := p.index + 1 }) := by
        simp [Automaton.advance, hout, he]
      obtain ⟨words', hp'⟩ := hp.answer ha hround
      exact .turn hp'
  | @follow p found s hout he =>
    cases hm with
    | turn hp =>
      have hround : a.advance h p = .again { p with output := a.output s, index := 0 } := by
        simp [Automaton.advance, hout, he]
      obtain ⟨words', hp'⟩ := hp.again ha hround
      exact .turn hp'
  | read hout hb =>
    cases hm with
    | turn hp =>
      obtain rfl := hp.words_eq_nil hout
      exact .search hp hb .refl
  | fallBack hfall =>
    cases hm with
    | search hp hb hr => exact .search hp hb (hr.again hfall)
  | arrive hfall =>
    cases hm with
    | search hp hb hr =>
      obtain ⟨words', hp'⟩ := hp.again ha (advance_of_arrive ha hp hb hr hfall)
      exact .turn hp'

theorem reaches_keeps {Q : Searching → Nat → Prop} {cost : Searching → Nat} (ha : a.Recognizes patterns)
    (hreach : Round.Reaches (Round.counted (round a h) cost) (.start, 0) (m, n))
    (hkeep : ∀ {m m' n}, Sound a patterns h m → Q m n → Step a h m m' → Q m' (n + cost m))
    (hstart : Q .start 0) : Sound a patterns h m ∧ Q m n := by
  refine hreach.keeps_counted (P := fun m n => Sound a patterns h m ∧ Q m n) ?_ ⟨sound_start a patterns h, hstart⟩
  rintro m m' n ⟨hm, hQ⟩ hround
  have hstep := round_eq_again_iff.mp hround
  exact ⟨hm.step ha hstep, hkeep hm hQ hstep⟩

/-! ## Links and depth -/

theorem Sound.exists_label_search (ha : a.Recognizes patterns) (hm : Sound a patterns h ⟨p, found, .search b s⟩) :
    ∃ u, (prefixes patterns)[s]? = some u := by
  cases hm with
  | search hp _ hr =>
    obtain ⟨v, hv⟩ := hp.exists_label_state ha
    obtain ⟨u, hu, -⟩ :=
      Automaton.exists_label_of_reaches ha.holds (ha.linkedUpTo v.length) hv (Nat.le_refl _) hr
    exact ⟨u, hu⟩

/-- A link makes the automaton less deep, and a byte makes it deeper by one at most. -/
theorem Sound.links_step (ha : a.Recognizes patterns) (hm : Sound a patterns h m) (hstep : Step a h m m')
    (hle : n + a.trie.depth m.state ≤ m.place.consumed) :
    n + links a m + a.trie.depth m'.state ≤ m'.place.consumed := by
  cases hstep with
  | give | follow | read => exact hle
  | @fallBack p found b s s' hfall =>
    obtain ⟨u, hu⟩ := hm.exists_label_search ha
    have hless := Automaton.depth_lt_of_fallBack ha.holds (ha.linkedUpTo u.length) hu hfall
    have hlinks : (a.fallBack b s).repeats = 1 := by rw [hfall, Round.repeats]
    change n + a.trie.depth s ≤ p.consumed at hle
    show n + (a.fallBack b s).repeats + a.trie.depth s' ≤ p.consumed
    omega
  | @arrive p found b s s' hfall =>
    obtain ⟨u, hu⟩ := hm.exists_label_search ha
    have hmore := Automaton.depth_le_of_fallBack ha.holds hu hfall
    have hlinks : (a.fallBack b s).repeats = 0 := by rw [hfall, Round.repeats]
    change n + a.trie.depth s ≤ p.consumed at hle
    show n + (a.fallBack b s).repeats + a.trie.depth s' ≤ p.consumed + 1
    omega

theorem links_add_depth_le (ha : a.Recognizes patterns)
    (hreach : Round.Reaches (Round.counted (round a h) (links a)) (.start, 0) (m, n)) :
    n + a.trie.depth m.state ≤ m.place.consumed := by
  have hstart : 0 + a.trie.depth root ≤ 0 := by
    rw [ha.holds.depth_eq ha.holds.root_label, List.length_nil]
  exact (reaches_keeps (Q := fun m n => n + a.trie.depth m.state ≤ m.place.consumed) ha hreach
    (fun hm hle hstep => hm.links_step ha hstep hle) hstart).2

/-! ## Turns and matches -/

/-- The turns that the bytes and the matches so far pay for: one for each byte, also the one that is being read, and
two for each match. -/
def paid (m : Searching) : Nat :=
  m.place.consumed + 2 * m.found.length +
    match m.task with
    | .turn => 0
    | .search _ _ => 1

/-- The second turn that a match pays for is spent when its state is left, so as long as a state gives out matches one
turn is left. -/
theorem Sound.turns_step (ha : a.Recognizes patterns) (hm : Sound a patterns h m) (hstep : Step a h m m')
    (hle : n + min 1 m.place.index ≤ m.paid) : n + turns m + min 1 m'.place.index ≤ m'.paid := by
  cases hstep with
  | @follow p found s hout he =>
    have hindex : 0 < p.index := by
      cases hm with
      | turn hp =>
        obtain ⟨u, us, rfl, hs⟩ := hp.exists_cons_of_output hout
        have hu : u ∈ patterns := (mem_reportedSuffixes.mp (hp.words_suffix.subset List.mem_cons_self)).2.2
        have hsize := (Automaton.size_endings_ne_zero_iff ha.holds hs).mpr hu
        have := Array.getElem?_eq_none_iff.mp he
        omega
    simp [turns, paid] at hle ⊢
    omega
  | _ =>
    simp [turns, paid] at hle ⊢
    omega

theorem turns_le (ha : a.Recognizes patterns)
    (hstops : Round.Stops (Round.counted (round a h) turns) k (.start, 0) ((found, p), n)) :
    n ≤ h.size + 2 * found.length + 1 := by
  obtain ⟨⟨m, n⟩, hreach, hdone⟩ := hstops.exists_last
  obtain ⟨hround, rfl⟩ := Round.counted_eq_done_iff.mp hdone
  obtain ⟨hm, hle⟩ := reaches_keeps (Q := fun m n => n + min 1 m.place.index ≤ m.paid) ha hreach
    (fun hm hle hstep => hm.turns_step ha hstep hle) (Nat.le_refl 0)
  obtain rfl := eq_of_round_done hround
  cases hm with
  | turn hp =>
    have hconsumed := hp.consumed_le
    simp [turns, paid] at hle ⊢
    omega

/-! ## Calls for the next match -/

theorem reaches_fallBack (hr : Round.Reaches (a.fallBack b) s s') :
    Round.Reaches (round a h) ⟨p, found, .search b s⟩ ⟨p, found, .search b s'⟩ := by
  induction hr with
  | refl => exact .refl
  | again _ hfall ih => exact ih.again (round_eq_again_iff.mpr (.fallBack hfall))

theorem reaches_of_again (ha : a.Recognizes patterns) (hp : a.Stands patterns h p words)
    (hround : a.advance h p = .again p') (found : List Match) :
    Round.Reaches (round a h) ⟨p, found, .turn⟩ ⟨p', found, .turn⟩ := by
  rw [Automaton.advance] at hround
  split at hround
  · next s hout =>
    split at hround
    · cases hround
    · next he =>
      cases hround
      exact Round.Reaches.refl.again (round_eq_again_iff.mpr (.follow hout he))
  · next hout =>
    split at hround
    · next b hb =>
      cases hround
      obtain ⟨v, hv⟩ := hp.exists_label_state ha
      obtain ⟨n, -, hstops⟩ := Automaton.exists_stops_fallBack ha.holds (ha.linkedUpTo v.length) hv b
      obtain ⟨s, hr, hdone⟩ := hstops.exists_last
      have hread : Round.Reaches (round a h) ⟨p, found, .turn⟩ ⟨p, found, .search b p.state⟩ :=
        Round.Reaches.refl.again (round_eq_again_iff.mpr (.read hout hb))
      exact (hread.trans (reaches_fallBack hr)).again (round_eq_again_iff.mpr (.arrive hdone))
    · cases hround

theorem reaches_advance (ha : a.Recognizes patterns) (hp : a.Stands patterns h p words)
    (hreach : Round.Reaches (a.advance h) p p') (found : List Match) :
    Round.Reaches (round a h) ⟨p, found, .turn⟩ ⟨p', found, .turn⟩ := by
  induction hreach with
  | refl => exact .refl
  | again hr hround ih =>
    obtain ⟨words', hp'⟩ := hp.of_reaches ha hr
    exact ih.trans (reaches_of_again ha hp' hround found)

theorem round_of_done {o : Option Match} (hround : a.advance h p = .done (o, p')) (found : List Match) :
    round a h ⟨p, found, .turn⟩ = o.elim (.done (found, p')) fun e => .again ⟨p', found ++ [e], .turn⟩ := by
  rw [Automaton.advance] at hround
  split at hround
  · next s hout =>
    split at hround
    · next e he =>
      cases hround
      simp [round, hout, he]
    · cases hround
  · next hout =>
    split at hround
    · cases hround
    · next hb =>
      cases hround
      simp [round, hout, hb]

variable {c : Cursor} {ms : List Match}

theorem exists_reaches_answer (hc : c.Left patterns ms) (found : List Match) :
    ∃ p, Round.Reaches (round c.automaton c.haystack) ⟨c.place, found, .turn⟩ ⟨p, found, .turn⟩ ∧
      c.automaton.advance c.haystack p = .done (ms.head?, c.next.2.place) := by
  obtain ⟨c', hnext, -⟩ := hc.next
  have hfirst : c.next.1 = ms.head? := congrArg Prod.fst hnext
  have hanswer : c.automaton.nextMatch c.haystack c.place = (ms.head?, c.next.2.place) := Prod.ext hfirst rfl
  obtain ⟨ha, words, hp, -⟩ := hc
  obtain ⟨n, hstops⟩ := hp.exists_stops ha
  obtain ⟨p, hreach, hdone⟩ := hstops.exists_last
  exact ⟨p, reaches_advance ha hp hreach found, hdone.trans (congrArg Round.done hanswer)⟩

theorem reaches_next (hc : c.Left patterns (e :: ms)) (found : List Match) :
    Round.Reaches (round c.automaton c.haystack) ⟨c.place, found, .turn⟩
      ⟨c.next.2.place, found ++ [e], .turn⟩ := by
  obtain ⟨p, hreach, hdone⟩ := exists_reaches_answer hc found
  exact hreach.again (round_of_done hdone found)

theorem stops_next (hc : c.Left patterns []) (found : List Match) :
    ∃ k, Round.Stops (round c.automaton c.haystack) k ⟨c.place, found, .turn⟩ (found, c.next.2.place) := by
  obtain ⟨p, hreach, hdone⟩ := exists_reaches_answer hc found
  exact hreach.stops (.done (round_of_done hdone found))

theorem reaches_after (ha : a.Recognizes patterns) (h : Haystack) {i : Nat} (hi : i ≤ (a.search h).length) :
    Round.Reaches (round a h) .start ⟨((a.cursor h).after i).place, (a.search h).take i, .turn⟩ := by
  induction i with
  | zero => exact .refl
  | succ i ih =>
    have hc := (Cursor.left_cursor ha h).after i
    rw [← ha.search_eq, List.drop_eq_getElem_cons hi] at hc
    have hnext := reaches_next hc ((a.search h).take i)
    rw [Cursor.automaton_after, Cursor.haystack_after, List.take_append_getElem hi, ← Cursor.after_succ'] at hnext
    exact (ih (Nat.le_of_succ_le hi)).trans hnext

theorem stops_start (ha : a.Recognizes patterns) (h : Haystack) :
    ∃ k, Round.Stops (round a h) k .start (a.search h, ⟨h.size, a.stateAfter h.toList, none, 0⟩) := by
  have hreach := reaches_after ha h (Nat.le_refl _)
  rw [List.take_length] at hreach
  have hc := (Cursor.left_cursor ha h).after (a.search h).length
  rw [← ha.search_eq, List.drop_length] at hc
  obtain ⟨k, hstops⟩ := stops_next hc (a.search h)
  rcases hc.place_of_next with ⟨m, w, s, -, -, -, -, hsome⟩ | ⟨c', hplace, hnone, -⟩
  · obtain ⟨c', hnone, -⟩ := hc.next
    rw [hsome] at hnone
    cases hnone
  · rw [hnone, hplace, Cursor.automaton_after, Cursor.haystack_after] at hstops
    exact hreach.stops hstops

end Searching

namespace Automaton

variable {config : Builder} {a : Automaton} {patterns : List Bytes}

/-! ## Main result -/

/-- **A scan takes linear time.** At each of its moments, the failure links that have been followed and the depth of
the state at hand are together no more than the bytes that have been consumed. When it is over, the body of the loop
has been begun at most once for each byte, twice for each match, and once more. The moments include the places where
the cursor stands after each of its calls. -/
theorem scan_is_linear (hbuild : config.build patterns = .ok a) (h : Haystack) :
    (∀ m n, Round.Reaches (Round.counted (Searching.round a h) (Searching.links a)) (.start, 0) (m, n) →
      n + a.trie.depth m.state ≤ m.place.consumed) ∧
    (∃ k n, Round.Stops (Round.counted (Searching.round a h) Searching.turns) k (.start, 0)
        ((a.search h, ⟨h.size, a.stateAfter h.toList, none, 0⟩), n) ∧
      n ≤ h.size + 2 * (a.search h).length + 1) ∧
    ∀ i ≤ (a.search h).length,
      Round.Reaches (Searching.round a h) .start ⟨((a.cursor h).after i).place, (a.search h).take i, .turn⟩ := by
  have ha := recognizes_of_build hbuild
  refine ⟨fun m n => Searching.links_add_depth_le ha, ?_, fun i => Searching.reaches_after ha h⟩
  obtain ⟨k, hstops⟩ := Searching.stops_start ha h
  obtain ⟨n, hcounted⟩ := hstops.counted Searching.turns 0
  exact ⟨k, n, hcounted, Searching.turns_le ha hcounted⟩

/-- In "aab" the second "a" makes the automaton follow a link from depth one to the root. Two matches are given out. -/
theorem scan_is_linear_aab :
    ∃ a, ({} : Builder).build [[97, 98], [98]] = .ok a ∧
      Round.Reaches (Round.counted (Searching.round a #[97, 97, 98]) (Searching.links a)) (.start, 0)
        (⟨⟨1, 1, none, 0⟩, [], .search 97 0⟩, 1) ∧ 1 + a.trie.depth 0 ≤ 1 ∧
      a.search #[97, 97, 98] = [⟨0, 2, 3⟩, ⟨1, 1, 3⟩] ∧
      (∃ k n, Round.Stops (Round.counted (Searching.round a #[97, 97, 98]) Searching.turns) k (.start, 0)
        (([⟨0, 2, 3⟩, ⟨1, 1, 3⟩], ⟨3, 2, none, 0⟩), n) ∧ n ≤ 8) ∧
      Round.Reaches (Searching.round a #[97, 97, 98]) .start ⟨⟨3, 2, some 2, 1⟩, [⟨0, 2, 3⟩], .turn⟩ := by
  have hbuild : ({} : Builder).build [[97, 98], [98]] = .ok ⟨⟨#[⟨.sparse #[(97, 1), (98, 3)], #[], 0⟩,
    ⟨.sparse #[(98, 2)], #[], 1⟩, ⟨.sparse #[], #[⟨0, 2⟩], 2⟩, ⟨.sparse #[], #[⟨1, 1⟩], 1⟩], #[2, 1]⟩,
    #[{}, {}, ⟨3, some 3⟩, {}]⟩ := rfl
  obtain ⟨hlinks, hturns, hplaces⟩ := scan_is_linear hbuild #[97, 97, 98]
  refine ⟨_, hbuild, ?_, ?_, by decide, hturns, hplaces 1 (by decide)⟩
  · exact .again (.again (.again (.again .refl rfl) rfl) rfl) rfl
  · exact hlinks ⟨⟨1, 1, none, 0⟩, [], .search 97 0⟩ 1 (.again (.again (.again (.again .refl rfl) rfl) rfl) rfl)

end Automaton

end AhoCorasick
