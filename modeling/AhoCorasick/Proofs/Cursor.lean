import AhoCorasick.Cursor
import AhoCorasick.Proofs.Automaton
import AhoCorasick.Proofs.Occurrences

/-!
# A cursor gives out the occurrences

While a text is searched, the bytes that are consumed, the words whose patterns are still to be given out
and the position in the first of them determine where the cursor stands (`Automaton.Stands`) and what it
has still to give out (`pending`). A round either gives out the first pending match (`Stands.give`,
`pending_give`) or leaves the pending matches as they are (`Stands.follow`, `Stands.read`), and only boundedly
many rounds do the latter. So `next` answers the first pending match and goes to where the others are
pending (`Cursor.Left.next`), and from the start all occurrences are pending.
-/

namespace AhoCorasick

/-- What a cursor at `p` has still to give out: the patterns of `words`, of which the first `p.index` have
been given out, and everything that ends later. -/
def pending (patterns : List Bytes) (h : Haystack) (p : Place) (words : List Bytes) : List Match :=
  (words.flatMap (reports patterns p.consumed)).drop p.index ++
    (List.range' (p.consumed + 1) (h.size - p.consumed)).flatMap (occurrencesAt patterns h.toList)

namespace Automaton

variable {a : Automaton} {patterns words us : List Bytes} {h : Haystack} {p : Place} {u w : Bytes}
  {s : StateId} {o : Option StateId} {i : Nat}

/-- The output links from `p.output` lead through `words`, the reported suffixes of the bytes consumed whose
patterns have not all been given out. -/
structure Stands (a : Automaton) (patterns : List Bytes) (h : Haystack) (p : Place)
    (words : List Bytes) : Prop where
  consumed_le : p.consumed ≤ h.size
  state_eq : p.state = a.stateAfter (h.toList.take p.consumed)
  words_suffix : words <:+ reportedSuffixes patterns (h.toList.take p.consumed)
  chain : ∃ states, OutputChain a p.output states ∧
    List.Forall₂ (fun s u => (prefixes patterns)[s]? = some u) states words
  index_le : p.index ≤ words.head?.elim 0 fun u => (idsOf patterns u).length

theorem stands_start (a : Automaton) (patterns : List Bytes) (h : Haystack) :
    a.Stands patterns h {} [] :=
  ⟨Nat.zero_le _, rfl, List.nil_suffix, ⟨[], .nil, .nil⟩, Nat.le_refl _⟩

theorem Stands.nodup (hp : a.Stands patterns h p words) : words.Nodup :=
  hp.words_suffix.sublist.nodup (nodup_reportedSuffixes patterns _)

theorem Stands.output_eq_none (hp : a.Stands patterns h p []) : p.output = none := by
  obtain ⟨states, hchain, hall⟩ := hp.chain
  cases hall
  cases hout : p.output with
  | none => rfl
  | some s => rw [hout] at hchain; cases hchain

theorem Stands.output_eq_some (hp : a.Stands patterns h p (u :: us)) :
    ∃ s states, p.output = some s ∧ (prefixes patterns)[s]? = some u ∧
      OutputChain a (a.output s) states ∧
      List.Forall₂ (fun s u => (prefixes patterns)[s]? = some u) states us := by
  obtain ⟨states, hchain, hall⟩ := hp.chain
  cases hall with
  | cons hs hrest =>
    generalize hout : p.output = o at hchain
    cases hchain with
    | cons hchain => exact ⟨_, _, rfl, hs, hchain, hrest⟩

theorem Stands.exists_cons_of_output (hp : a.Stands patterns h p words) (hout : p.output = some s) :
    ∃ u us, words = u :: us ∧ (prefixes patterns)[s]? = some u := by
  cases words with
  | nil =>
    rw [hp.output_eq_none] at hout
    cases hout
  | cons u us =>
    obtain ⟨s', -, hsome, hs, -⟩ := hp.output_eq_some
    obtain rfl : s' = s := Option.some.inj (hsome.symm.trans hout)
    exact ⟨u, us, rfl, hs⟩

theorem Stands.words_eq_nil (hp : a.Stands patterns h p words) (hout : p.output = none) : words = [] := by
  cases words with
  | nil => rfl
  | cons u us =>
    obtain ⟨s, -, hsome, -⟩ := hp.output_eq_some
    rw [hout] at hsome
    cases hsome

theorem Stands.exists_label_state (ha : a.Recognizes patterns) (hp : a.Stands patterns h p words) :
    ∃ v, (prefixes patterns)[p.state]? = some v := by
  obtain ⟨v, -, hv⟩ := ha.stateAfter_spec (h.toList.take p.consumed)
  exact ⟨v, hp.state_eq ▸ hv⟩

/-!
## One round

A round gives out a pattern of the first word, or turns to the next word when all of these have been given out. When no
word is left, it consumes a byte, and the reported suffixes of the bytes so far are due; or the text is at its end.
-/

theorem getElem?_endings (ha : a.Recognizes patterns) (hs : (prefixes patterns)[s]? = some u) (i : Nat) :
    (a.endings s)[i]? = ((idsOf patterns u)[i]?).map fun id => (⟨id, u.length⟩ : Pattern) := by
  rw [← Array.getElem?_toList, endings, ha.holds.endings_eq hs, List.getElem?_map]

theorem Stands.give (ha : a.Recognizes patterns) (hp : a.Stands patterns h p (u :: us))
    (hi : (idsOf patterns u)[p.index]? = some i) :
    a.advance h p = .done (some ⟨i, u.length, p.consumed⟩, { p with index := p.index + 1 }) ∧
      a.Stands patterns h { p with index := p.index + 1 } (u :: us) := by
  obtain ⟨s, _, hout, hs, -⟩ := hp.output_eq_some
  have hget := getElem?_endings ha hs p.index
  rw [hi, Option.map_some] at hget
  have hlt : p.index < (idsOf patterns u).length := (List.getElem?_eq_some_iff.mp hi).1
  refine ⟨by simp [Automaton.advance, hout, hget, Match.ofPattern], ?_⟩
  exact ⟨hp.consumed_le, hp.state_eq, hp.words_suffix, hp.chain, by simpa using hlt⟩

theorem Stands.follow (ha : a.Recognizes patterns) (hp : a.Stands patterns h p (u :: us))
    (hi : p.index = (idsOf patterns u).length) :
    ∃ s, p.output = some s ∧ a.advance h p = .again { p with output := a.output s, index := 0 } ∧
      a.Stands patterns h { p with output := a.output s, index := 0 } us := by
  obtain ⟨s, states, hout, hs, hchain, hall⟩ := hp.output_eq_some
  have hget := getElem?_endings ha hs p.index
  rw [List.getElem?_eq_none hi.ge, Option.map_none] at hget
  refine ⟨s, hout, by simp [Automaton.advance, hout, hget], ?_⟩
  exact ⟨hp.consumed_le, hp.state_eq, (List.suffix_cons u us).trans hp.words_suffix,
    ⟨states, hchain, hall⟩, Nat.zero_le _⟩

theorem Stands.read (ha : a.Recognizes patterns) (hp : a.Stands patterns h p [])
    (hlt : p.consumed < h.size) :
    ∃ s, a.advance h p = .again ⟨p.consumed + 1, s, a.firstOutput s, 0⟩ ∧
      a.Stands patterns h ⟨p.consumed + 1, s, a.firstOutput s, 0⟩
        (reportedSuffixes patterns (h.toList.take (p.consumed + 1))) := by
  have hbyte : h[p.consumed]? = some h[p.consumed] := Array.getElem?_eq_getElem hlt
  have htake : h.toList.take (p.consumed + 1) = h.toList.take p.consumed ++ [h[p.consumed]] := by
    rw [List.take_add_one]
    simp [hlt]
  have hstate : a.next p.state h[p.consumed] = a.stateAfter (h.toList.take (p.consumed + 1)) := by
    rw [htake, stateAfter, List.foldl_append, hp.state_eq]
    rfl
  obtain ⟨v, hv, hlabel⟩ := ha.stateAfter_spec (h.toList.take (p.consumed + 1))
  rw [← hstate] at hlabel
  have hsame : reportedSuffixes patterns (h.toList.take (p.consumed + 1)) =
      reportedSuffixes patterns v :=
    hv.filter_tails_eq fun x hx => mem_prefixes_of_mem hx.2
  refine ⟨a.next p.state h[p.consumed],
    by simp [Automaton.advance, hp.output_eq_none, hbyte], ?_⟩
  exact ⟨hlt, hstate, List.suffix_refl _, hsame ▸ ha.outputChain_firstOutput hlabel, Nat.zero_le _⟩

theorem Stands.finish (hp : a.Stands patterns h p []) (hend : p.consumed = h.size) :
    a.advance h p = .done (none, p) := by
  simp [Automaton.advance, hp.output_eq_none, hend]

theorem Stands.cases (hp : a.Stands patterns h p words) :
    (∃ u us i, words = u :: us ∧ (idsOf patterns u)[p.index]? = some i) ∨
    (∃ u us, words = u :: us ∧ p.index = (idsOf patterns u).length) ∨
    (words = [] ∧ p.consumed < h.size) ∨ (words = [] ∧ p.consumed = h.size) := by
  cases words with
  | cons u us =>
    have hindex : p.index ≤ (idsOf patterns u).length := hp.index_le
    rcases Nat.lt_or_eq_of_le hindex with hlt | heq
    · exact Or.inl ⟨u, us, _, rfl, List.getElem?_eq_getElem hlt⟩
    · exact Or.inr (Or.inl ⟨u, us, rfl, heq⟩)
  | nil =>
    rcases Nat.lt_or_eq_of_le hp.consumed_le with hlt | heq
    · exact Or.inr (Or.inr (Or.inl ⟨rfl, hlt⟩))
    · exact Or.inr (Or.inr (Or.inr ⟨rfl, heq⟩))

end Automaton

/-! ## The pending matches -/

variable {patterns words us : List Bytes} {h : Haystack} {p : Place} {u : Bytes} {s : StateId}
  {o : Option StateId} {i : Nat}

theorem pending_start (patterns : List Bytes) (h : Haystack) :
    pending patterns h {} [] = occurrences patterns h.toList := by
  simp [pending, occurrences]

theorem pending_give (hi : (idsOf patterns u)[p.index]? = some i) :
    pending patterns h p (u :: us) =
      ⟨i, u.length, p.consumed⟩ :: pending patterns h { p with index := p.index + 1 } (u :: us) := by
  have hfirst : (reports patterns p.consumed u)[p.index]? = some ⟨i, u.length, p.consumed⟩ := by
    rw [reports, List.getElem?_map, hi, Option.map_some]
  have hget : ((u :: us).flatMap (reports patterns p.consumed))[p.index]? =
      some ⟨i, u.length, p.consumed⟩ := by
    rw [List.flatMap_cons, List.getElem?_append_left (List.getElem?_eq_some_iff.mp hfirst).1, hfirst]
  obtain ⟨hlt, hhead⟩ := List.getElem?_eq_some_iff.mp hget
  unfold pending
  rw [List.drop_eq_getElem_cons hlt, hhead, List.cons_append]

theorem pending_follow (hi : p.index = (idsOf patterns u).length) (o : Option StateId) :
    pending patterns h p (u :: us) =
      pending patterns h { p with output := o, index := 0 } us := by
  have hlength : p.index = (reports patterns p.consumed u).length := by simp [reports, hi]
  unfold pending
  rw [List.flatMap_cons, hlength, List.drop_left, List.drop_zero]

theorem pending_read (hp : p.consumed < h.size) (s : StateId) (o : Option StateId) :
    pending patterns h p [] = pending patterns h ⟨p.consumed + 1, s, o, 0⟩
      (reportedSuffixes patterns (h.toList.take (p.consumed + 1))) := by
  have hleft : h.size - p.consumed = (h.size - (p.consumed + 1)) + 1 := by omega
  have hstop : p.consumed + 1 ≤ h.toList.length := by simpa using hp
  unfold pending
  rw [hleft, List.range'_succ, List.flatMap_cons, occurrencesAt_eq hstop]
  simp

theorem pending_end (hp : p.consumed = h.size) : pending patterns h p [] = [] := by
  simp [pending, hp]

/-- No pattern ends twice at one offset. -/
theorem length_pending_le (patterns : List Bytes) (h : Haystack) (p : Place) (hwords : words.Nodup) :
    (pending patterns h p words).length ≤ (h.size - p.consumed + 1) * patterns.length := by
  have hheld : ((words.flatMap (reports patterns p.consumed)).drop p.index).length ≤ patterns.length := by
    have := length_flatMap_reports_le patterns hwords p.consumed
    simp only [List.length_drop]
    omega
  have hlater : ((List.range' (p.consumed + 1) (h.size - p.consumed)).flatMap
      (occurrencesAt patterns h.toList)).length ≤ (h.size - p.consumed) * patterns.length := by
    rw [List.length_flatMap]
    refine (List.sum_le_card_nsmul _ patterns.length fun n hn => ?_).trans_eq (by simp)
    obtain ⟨stop, hstop, rfl⟩ := List.mem_map.mp hn
    rw [List.mem_range'_1] at hstop
    rw [occurrencesAt_eq (by simp; omega)]
    exact length_flatMap_reports_le patterns (nodup_reportedSuffixes patterns _) stop
  rw [pending, List.length_append, Nat.add_mul, Nat.one_mul]
  omega

namespace Automaton

variable {a : Automaton}

/-! ## The next match -/

/-- A number of rounds that is enough for the next match: it falls with every round that gives out nothing. -/
def rank (a : Automaton) (h : Haystack) (p : Place) (words : List Bytes) : Nat :=
  (h.size - p.consumed) * (a.size + 2) + words.length + 1

theorem rank_follow (a : Automaton) (h : Haystack) (p : Place) (u : Bytes) (us : List Bytes)
    (o : Option StateId) :
    a.rank h { p with output := o, index := 0 } us < a.rank h p (u :: us) := by
  simp [rank]

theorem rank_read (hp : p.consumed < h.size) (hwords : words.length ≤ a.size) (s : StateId)
    (o : Option StateId) :
    a.rank h ⟨p.consumed + 1, s, o, 0⟩ words < a.rank h p [] := by
  have hleft : h.size - p.consumed = (h.size - (p.consumed + 1)) + 1 := by omega
  unfold rank
  rw [hleft, Nat.add_mul, Nat.one_mul]
  simp
  omega

theorem length_le_size (ha : a.Recognizes patterns) (hwords : words <:+ reportedSuffixes patterns u) :
    words.length ≤ a.size := by
  have hnodup : words.Nodup := hwords.sublist.nodup (nodup_reportedSuffixes patterns _)
  have hsubset : words ⊆ prefixes patterns := fun v hv =>
    mem_prefixes_of_mem (mem_reportedSuffixes.mp (hwords.subset hv)).2.2
  have hsize : a.size = (prefixes patterns).length := ha.holds.size_eq
  rw [hsize]
  exact (hnodup.subperm hsubset).length_le

theorem Stands.rank_le_reach (ha : a.Recognizes patterns) (hp : a.Stands patterns h p words) :
    a.rank h p words ≤ a.reach h p := by
  have := length_le_size ha hp.words_suffix
  rw [rank, reach, Nat.add_mul, Nat.one_mul]
  omega

theorem Stands.run_advance (ha : a.Recognizes patterns) :
    ∀ (bound : Nat) (p : Place) (words : List Bytes), a.Stands patterns h p words →
      a.rank h p words ≤ bound →
      ∃ p' words', Round.run (a.advance h) bound p = some ((pending patterns h p words).head?, p') ∧
        a.Stands patterns h p' words' ∧
        pending patterns h p' words' = (pending patterns h p words).tail := by
  intro bound
  induction bound with
  | zero =>
    intro p words _ hle
    unfold rank at hle
    omega
  | succ bound ih =>
    intro p words hp hle
    rcases hp.cases with ⟨u, us, i, rfl, hi⟩ | ⟨u, us, rfl, hi⟩ | ⟨rfl, hlt⟩ | ⟨rfl, hend⟩
    · obtain ⟨hstep, hp'⟩ := hp.give ha hi
      refine ⟨_, _, ?_, hp', ?_⟩ <;> simp [Round.run, hstep, pending_give hi]
    · obtain ⟨s, -, hstep, hp'⟩ := hp.follow ha hi
      have hless := a.rank_follow h p u us (a.output s)
      obtain ⟨p', words', hrun, hp', hrest⟩ := ih _ _ hp' (by omega)
      rw [← pending_follow hi] at hrun hrest
      exact ⟨p', words', by simpa [Round.run, hstep] using hrun, hp', hrest⟩
    · obtain ⟨s, hstep, hp'⟩ := hp.read ha hlt
      have hwords := length_le_size ha hp'.words_suffix
      have hless := rank_read hlt hwords s (a.firstOutput s)
      obtain ⟨p', words', hrun, hp', hrest⟩ := ih _ _ hp' (by omega)
      rw [← pending_read hlt] at hrun hrest
      exact ⟨p', words', by simpa [Round.run, hstep] using hrun, hp', hrest⟩
    · refine ⟨p, [], ?_, hp, ?_⟩ <;> simp [Round.run, hp.finish hend, pending_end hend]

theorem Stands.nextMatch (ha : a.Recognizes patterns) (hp : a.Stands patterns h p words) :
    ∃ p' words', a.nextMatch h p = ((pending patterns h p words).head?, p') ∧
      a.Stands patterns h p' words' ∧
      pending patterns h p' words' = (pending patterns h p words).tail := by
  obtain ⟨p', words', hrun, hp', hrest⟩ := hp.run_advance ha _ p words (hp.rank_le_reach ha)
  exact ⟨p', words', by rw [Automaton.nextMatch, hrun, Option.getD_some], hp', hrest⟩

end Automaton

/-! ## Cursors -/

namespace Cursor

variable {c : Cursor} {ms : List Match}

/-- The matches `ms` are left to the cursor. -/
structure Left (c : Cursor) (patterns : List Bytes) (ms : List Match) : Prop where
  recognizes : c.automaton.Recognizes patterns
  stands : ∃ words, c.automaton.Stands patterns c.haystack c.place words ∧
    pending patterns c.haystack c.place words = ms

theorem left_cursor {a : Automaton} (ha : a.Recognizes patterns) (h : Haystack) :
    (a.cursor h).Left patterns (occurrences patterns h.toList) :=
  ⟨ha, [], a.stands_start patterns h, pending_start patterns h⟩

theorem Left.next (hc : c.Left patterns ms) :
    ∃ c', c.next = (ms.head?, c') ∧ c'.Left patterns ms.tail := by
  obtain ⟨ha, words, hp, rfl⟩ := hc
  obtain ⟨p', words', hnext, hp', hrest⟩ := hp.nextMatch ha
  exact ⟨{ c with place := p' }, by simp [Cursor.next, hnext], ha, words', hp', hrest⟩

theorem Left.takeOnto (n : Nat) :
    ∀ (ms found : List Match) (c : Cursor), c.Left patterns ms →
      ∃ c', c.takeOnto n found.toArray = ((found ++ ms.take n).toArray, c') ∧
        c'.Left patterns (ms.drop n) := by
  induction n with
  | zero =>
    intro ms found c hc
    exact ⟨c, by simp [Cursor.takeOnto], by simpa using hc⟩
  | succ n ih =>
    intro ms found c hc
    obtain ⟨c₁, hnext, hc₁⟩ := hc.next
    cases ms with
    | nil => exact ⟨c₁, by simp [Cursor.takeOnto, hnext], by simpa using hc₁⟩
    | cons m ms =>
      obtain ⟨c', htake, hc'⟩ := ih ms (found ++ [m]) c₁ hc₁
      refine ⟨c', ?_, by simpa using hc'⟩
      simpa [Cursor.takeOnto, hnext] using htake

theorem Left.take (hc : c.Left patterns ms) (n : Nat) :
    ∃ c', c.take n = (ms.take n, c') ∧ c'.Left patterns (ms.drop n) := by
  obtain ⟨c', htake, hc'⟩ := Left.takeOnto n ms [] c hc
  exact ⟨c', by simp [Cursor.take, htake], hc'⟩

theorem Left.length_lt_abundance (hc : c.Left patterns ms) : ms.length < c.abundance := by
  obtain ⟨ha, words, hp, rfl⟩ := hc
  have := length_pending_le patterns c.haystack c.place hp.nodup
  rw [abundance, ha.patterns_eq]
  omega

theorem Left.rest (hc : c.Left patterns ms) :
    ∃ c', c.rest = (ms, c') ∧ c'.Left patterns [] := by
  have henough := hc.length_lt_abundance
  obtain ⟨c', htake, hc'⟩ := hc.take c.abundance
  rw [List.take_of_length_le henough.le] at htake
  rw [List.drop_eq_nil_of_le henough.le] at hc'
  exact ⟨c', htake, hc'⟩

end Cursor

namespace Automaton

variable {config : Builder} {a : Automaton}

theorem Recognizes.search_eq (ha : a.Recognizes patterns) (h : Haystack) :
    a.search h = occurrences patterns h.toList := by
  obtain ⟨c', hrest, -⟩ := (Cursor.left_cursor ha h).rest
  rw [search, hrest]

theorem Recognizes.mem_search (ha : a.Recognizes patterns) {h : Haystack} {m : Match} (hm : m ∈ a.search h) :
    m.pattern < patterns.length ∧ m.length ≤ m.stop ∧ m.stop ≤ h.size := by
  rw [ha.search_eq, mem_occurrences] at hm
  obtain ⟨-, hlength, hstop, hpattern⟩ := hm
  exact ⟨(List.getElem?_eq_some_iff.mp hpattern).1, hlength, hstop⟩

/-! ## Main result -/

/-- **A search finds exactly the occurrences**, by ascending end, then the longest first, then by id. -/
theorem search_eq_occurrences (hbuild : config.build patterns = .ok a) (h : Haystack) :
    a.search h = occurrences patterns h.toList := by
  exact (recognizes_of_build hbuild).search_eq h

theorem search_eq_occurrences_ab :
    ∃ a, ({} : Builder).build [[97, 98], [98], [], [98]] = .ok a ∧
      a.search #[97, 98] = occurrences [[97, 98], [98], [], [98]] [97, 98] ∧
      a.search #[97, 98] = [⟨0, 2, 2⟩, ⟨1, 1, 2⟩, ⟨3, 1, 2⟩] :=
  ⟨_, rfl, search_eq_occurrences
    (show ({} : Builder).build [[97, 98], [98], [], [98]] = .ok _ from rfl) #[97, 98], by decide⟩

end Automaton

end AhoCorasick
