import AhoCorasick.Proofs.Cursor
import AhoCorasick.Session

/-!
# Where a cursor stands

The last thing a cursor has answered tells where it stands. Every answer is given in a round whose place
`Stands` for some words (`Stands.exists_last`). So after a match the bytes up to its end have been consumed and
no more, and the pattern's state is the one whose patterns are being given out, up to this pattern; after the
end of the text all bytes have been consumed and nothing is being given out (`Stands.place_of_answer`).

All moves of a cursor come down to calls of `next` (`Cursor.exists_run_eq_after`), so this holds wherever a
cursor can get to (`place_of_last_answer`).
-/

namespace AhoCorasick

variable {patterns words : List Bytes} {u : Bytes} {i j : Nat}

/-! ## Equal patterns before a pattern -/

theorem length_idsOf (patterns : List Bytes) (u : Bytes) :
    (idsOf patterns u).length = patterns.count u := by
  induction patterns using List.reverseRecOn with
  | nil => rfl
  | append_singleton patterns p ih =>
    rw [idsOf_concat, List.length_append, ih, List.count_append, List.count_singleton]
    by_cases hp : p = u <;> simp [hp]

theorem eq_count_of_getElem?_idsOf (h : (idsOf patterns u)[j]? = some i) :
    j = (patterns.take i).count u := by
  induction patterns using List.reverseRecOn with
  | nil => simp [idsOf] at h
  | append_singleton patterns p ih =>
    rw [idsOf_concat] at h
    split_ifs at h with hp
    · rcases getElem?_concat_eq_some_iff.mp h with h | ⟨rfl, rfl⟩
      · have hi : i < patterns.length :=
          (List.getElem?_eq_some_iff.mp (mem_idsOf.mp (List.mem_of_getElem? h))).1
        rw [ih h, List.take_append_of_le_length hi.le]
      · rw [List.take_left, length_idsOf]
    · rw [List.append_nil] at h
      have hi : i < patterns.length :=
        (List.getElem?_eq_some_iff.mp (mem_idsOf.mp (List.mem_of_getElem? h))).1
      rw [ih h, List.take_append_of_le_length hi.le]

namespace Automaton

variable {a : Automaton} {h : Haystack} {p p' : Place} {m : Match}

/-! ## The round of an answer -/

theorem Stands.round (ha : a.Recognizes patterns) (hp : a.Stands patterns h p words) :
    (∃ p' words', a.advance h p = .again p' ∧ a.Stands patterns h p' words') ∨
      ∃ m p' words', a.advance h p = .done (m, p') ∧ a.Stands patterns h p' words' := by
  rcases hp.cases with ⟨u, us, i, rfl, hi⟩ | ⟨u, us, rfl, hi⟩ | ⟨rfl, hlt⟩ | ⟨rfl, hend⟩
  · obtain ⟨hstep, hp'⟩ := hp.give ha hi
    exact Or.inr ⟨_, _, _, hstep, hp'⟩
  · obtain ⟨s, -, hstep, hp'⟩ := hp.follow ha hi
    exact Or.inl ⟨_, _, hstep, hp'⟩
  · obtain ⟨s, hstep, hp'⟩ := hp.read ha hlt
    exact Or.inl ⟨_, _, hstep, hp'⟩
  · exact Or.inr ⟨_, _, _, hp.finish hend, hp⟩

theorem Stands.again (ha : a.Recognizes patterns) (hp : a.Stands patterns h p words)
    (hround : a.advance h p = .again p') : ∃ words', a.Stands patterns h p' words' := by
  rcases hp.round ha with ⟨p₁, words₁, hstep, hp₁⟩ | ⟨m, p₁, words₁, hstep, -⟩
  · obtain rfl := Round.again.inj (hstep.symm.trans hround)
    exact ⟨words₁, hp₁⟩
  · rw [hstep] at hround
    cases hround

theorem Stands.answer {o : Option Match} (ha : a.Recognizes patterns) (hp : a.Stands patterns h p words)
    (hround : a.advance h p = .done (o, p')) : ∃ words', a.Stands patterns h p' words' := by
  rcases hp.round ha with ⟨p₁, words₁, hstep, -⟩ | ⟨m, p₁, words₁, hstep, hp₁⟩
  · rw [hstep] at hround
    cases hround
  · obtain ⟨-, rfl⟩ := Prod.mk.inj (Round.done.inj (hstep.symm.trans hround))
    exact ⟨words₁, hp₁⟩

theorem Stands.exists_stops (ha : a.Recognizes patterns) (hp : a.Stands patterns h p words) :
    ∃ n, Round.Stops (a.advance h) n p (a.nextMatch h p) := by
  obtain ⟨p', words', hrun, -, -⟩ := hp.run_advance ha _ p words (hp.rank_le_reach ha)
  obtain ⟨n, -, hstops⟩ := Round.run_eq_some_iff.mp hrun
  exact ⟨n, by rwa [Automaton.nextMatch, hrun, Option.getD_some]⟩

theorem Stands.of_reaches (ha : a.Recognizes patterns) (hp : a.Stands patterns h p words)
    (hreach : Round.Reaches (a.advance h) p p') : ∃ words', a.Stands patterns h p' words' :=
  hreach.keeps (P := fun p => ∃ words, a.Stands patterns h p words)
    (fun _ _ ⟨_, hp⟩ hround => hp.again ha hround) ⟨words, hp⟩

theorem Stands.exists_last (ha : a.Recognizes patterns) (hp : a.Stands patterns h p words) :
    ∃ p' words', a.Stands patterns h p' words' ∧ a.advance h p' = .done (a.nextMatch h p) := by
  obtain ⟨n, hstops⟩ := hp.exists_stops ha
  obtain ⟨p', hreach, hdone⟩ := hstops.exists_last
  obtain ⟨words', hp'⟩ := hp.of_reaches ha hreach
  exact ⟨p', words', hp', hdone⟩

theorem reach_pos (a : Automaton) (h : Haystack) (p : Place) : 0 < a.reach h p :=
  Nat.mul_pos (Nat.succ_pos _) (Nat.succ_pos _)

theorem nextMatch_eq_of_done {answer : Option Match × Place} (hdone : a.advance h p = .done answer) :
    a.nextMatch h p = answer := by
  obtain ⟨bound, hbound⟩ := Nat.exists_eq_succ_of_ne_zero (a.reach_pos h p).ne'
  rw [nextMatch, hbound, Round.run, hdone, Option.getD_some]

/-! ## The place after an answer -/

theorem Stands.place_of_answer (ha : a.Recognizes patterns) (hp : a.Stands patterns h p words) :
    (∃ m u s, patterns[m.pattern]? = some u ∧ (prefixes patterns)[s]? = some u ∧ m.length = u.length ∧
      m.stop ≤ h.size ∧
      a.nextMatch h p = (some m, ⟨m.stop, a.stateAfter (h.toList.take m.stop), some s,
        (patterns.take m.pattern).count u + 1⟩)) ∨
    ∃ p', p' = ⟨h.size, a.stateAfter h.toList, none, 0⟩ ∧ a.nextMatch h p = (none, p') ∧
      a.nextMatch h p' = (none, p') := by
  obtain ⟨p', words', hp', hdone⟩ := hp.exists_last ha
  rcases hp'.cases with ⟨u, us, i, rfl, hi⟩ | ⟨u, us, rfl, hi⟩ | ⟨rfl, hlt⟩ | ⟨rfl, hend⟩
  · obtain ⟨s, -, hout, hs, -⟩ := hp'.output_eq_some
    rw [(hp'.give ha hi).1, Round.done.injEq] at hdone
    refine Or.inl ⟨⟨i, u.length, p'.consumed⟩, u, s, mem_idsOf.mp (List.mem_of_getElem? hi), hs, rfl,
      hp'.consumed_le, ?_⟩
    rw [← hdone, ← eq_count_of_getElem?_idsOf hi, ← hout, ← hp'.state_eq]
  · obtain ⟨s, -, hstep, -⟩ := hp'.follow ha hi
    rw [hstep] at hdone
    cases hdone
  · obtain ⟨s, hstep, -⟩ := hp'.read ha hlt
    rw [hstep] at hdone
    cases hdone
  · have hfinish := hp'.finish hend
    have hall : h.toList.take p'.consumed = h.toList := List.take_of_length_le (by simp [hend])
    have hindex : p'.index = 0 := Nat.le_zero.mp hp'.index_le
    rw [hfinish, Round.done.injEq] at hdone
    refine Or.inr ⟨p', ?_, hdone.symm, nextMatch_eq_of_done hfinish⟩
    rw [← hend, ← hall, ← hp'.state_eq, ← hp'.output_eq_none, ← hindex]

end Automaton

/-! ## Calls of `next` -/

namespace Cursor

variable {c : Cursor} {ms : List Match}

/-- The cursor after `n` calls of `next`. -/
def after (c : Cursor) (n : Nat) : Cursor := (fun c => c.next.2)^[n] c

theorem after_succ (c : Cursor) (n : Nat) : c.after (n + 1) = c.next.2.after n := rfl

theorem after_succ' (c : Cursor) (n : Nat) : c.after (n + 1) = (c.after n).next.2 :=
  Function.iterate_succ_apply' _ n c

theorem after_after (c : Cursor) (m n : Nat) : (c.after m).after n = c.after (n + m) :=
  (Function.iterate_add_apply _ n m c).symm

@[simp] theorem automaton_after (c : Cursor) (n : Nat) : (c.after n).automaton = c.automaton := by
  induction n with
  | zero => rfl
  | succ n ih => rw [after_succ', ← ih]; rfl

@[simp] theorem haystack_after (c : Cursor) (n : Nat) : (c.after n).haystack = c.haystack := by
  induction n with
  | zero => rfl
  | succ n ih => rw [after_succ', ← ih]; rfl

theorem after_of_next_eq (hnext : c.next = (none, c)) (n : Nat) : c.after n = c :=
  Function.iterate_fixed (congrArg Prod.snd hnext) n

theorem Left.after (hc : c.Left patterns ms) (n : Nat) : (c.after n).Left patterns (ms.drop n) := by
  induction n with
  | zero => exact hc
  | succ n ih =>
    obtain ⟨c', hnext, hc'⟩ := ih.next
    rw [after_succ', hnext, ← List.tail_drop]
    exact hc'

theorem next_eq_of_nextMatch {m : Option Match} {p : Place}
    (h : c.automaton.nextMatch c.haystack c.place = (m, p)) : c.next = (m, { c with place := p }) := by
  rw [Cursor.next, h]

theorem Left.place_of_next (hc : c.Left patterns ms) :
    (∃ m w s, patterns[m.pattern]? = some w ∧ (prefixes patterns)[s]? = some w ∧ m.length = w.length ∧
      m.stop ≤ c.haystack.size ∧
      c.next = (some m, { c with place := ⟨m.stop, c.automaton.stateAfter (c.haystack.toList.take m.stop),
        some s, (patterns.take m.pattern).count w + 1⟩ })) ∨
    ∃ c' : Cursor, c'.place = ⟨c.haystack.size, c.automaton.stateAfter c.haystack.toList, none, 0⟩ ∧
      c.next = (none, c') ∧ c'.next = (none, c') := by
  obtain ⟨ha, words, hp, -⟩ := hc
  rcases hp.place_of_answer ha with ⟨m, w, s, hw, hs, hlength, hstop, hnext⟩ | ⟨p, hplace, hnext, hstay⟩
  · exact Or.inl ⟨m, w, s, hw, hs, hlength, hstop, next_eq_of_nextMatch hnext⟩
  · exact Or.inr ⟨{ c with place := p }, hplace, next_eq_of_nextMatch hnext, next_eq_of_nextMatch hstay⟩

theorem exists_nth_eq_after (n : Nat) (c : Cursor) : ∃ k, (c.nth n).2 = c.after k := by
  induction n generalizing c with
  | zero => exact ⟨1, rfl⟩
  | succ n ih =>
    rcases hnext : c.next with ⟨_ | m, c'⟩
    · exact ⟨1, by simp [nth, after, hnext]⟩
    · obtain ⟨k, hk⟩ := ih c'
      exact ⟨k + 1, by rw [after_succ, hnext, ← hk, nth, hnext]⟩

theorem exists_takeOnto_eq_after (n : Nat) (found : Array Match) (c : Cursor) :
    ∃ k, (c.takeOnto n found).2 = c.after k := by
  induction n generalizing found c with
  | zero => exact ⟨0, rfl⟩
  | succ n ih =>
    rcases hnext : c.next with ⟨_ | m, c'⟩
    · exact ⟨1, by simp [takeOnto, after, hnext]⟩
    · obtain ⟨k, hk⟩ := ih (found.push m) c'
      exact ⟨k + 1, by rw [after_succ, hnext, ← hk, takeOnto, hnext]⟩

theorem exists_run_eq_after (move : Move) (c : Cursor) : ∃ k, (move.run c).2 = c.after k := by
  cases move with
  | next => exact ⟨1, rfl⟩
  | nth n => exact c.exists_nth_eq_after n
  | take n => exact c.exists_takeOnto_eq_after n #[]
  | rest => exact c.exists_takeOnto_eq_after c.abundance #[]
  | count => exact ⟨0, rfl⟩
  | place => exact ⟨0, rfl⟩

/-- The cursors that come about when a text is searched: each is moved on from another one, from the start on. -/
inductive Reached (a : Automaton) (h : Haystack) : Cursor → Prop where
  | start : Reached a h (a.cursor h)
  | move {c : Cursor} (move : Move) : Reached a h c → Reached a h (move.run c).2

theorem Reached.exists_after {a : Automaton} {h : Haystack} (hc : Reached a h c) :
    ∃ n, c = (a.cursor h).after n := by
  induction hc with
  | start => exact ⟨0, rfl⟩
  | move move _ ih =>
    obtain ⟨n, rfl⟩ := ih
    obtain ⟨k, hk⟩ := exists_run_eq_after move ((a.cursor h).after n)
    exact ⟨k + n, by rw [hk, after_after]⟩

end Cursor

namespace Automaton

variable {config : Builder} {a : Automaton} {h : Haystack} {c : Cursor}

/-! ## Main result -/

/-- **Where a cursor stands after an answer**: behind the last byte of the match, in the state after these bytes, among
the patterns of the match's own state; or at the end of the text, where it stays. -/
theorem place_of_last_answer (hbuild : config.build patterns = .ok a) (hc : Cursor.Reached a h c) :
    (∀ m c', c.next = (some m, c') →
      ∃ w s, patterns[m.pattern]? = some w ∧ a.trie.find? w = some s ∧ m.length = w.length ∧
        m.stop ≤ h.size ∧
        c'.place = ⟨m.stop, a.stateAfter (h.toList.take m.stop), some s,
          (patterns.take m.pattern).count w + 1⟩) ∧
    ∀ c', c.next = (none, c') →
      c'.place = ⟨h.size, a.stateAfter h.toList, none, 0⟩ ∧
        ∀ n, c'.after n = c' ∧ (c'.after n).next = (none, c') := by
  have ha := recognizes_of_build hbuild
  obtain ⟨n, rfl⟩ := hc.exists_after
  have hplace := ((Cursor.left_cursor ha h).after n).place_of_next
  rw [Cursor.automaton_after, Cursor.haystack_after] at hplace
  constructor
  · intro m c' hnext
    rcases hplace with ⟨m', w, s, hw, hs, hlength, hstop, hnext'⟩ | ⟨c₁, -, hnext', -⟩
    · rw [hnext, Prod.mk.injEq, Option.some.injEq] at hnext'
      obtain ⟨rfl, rfl⟩ := hnext'
      exact ⟨w, s, hw, ha.find?_eq_some_iff.mpr hs, hlength, hstop, rfl⟩
    · rw [hnext] at hnext'
      cases hnext'
  · intro c' hnext
    rcases hplace with ⟨m, w, s, -, -, -, -, hnext'⟩ | ⟨c₁, hend, hnext', hstay⟩
    · rw [hnext] at hnext'
      cases hnext'
    · rw [hnext, Prod.mk.injEq] at hnext'
      obtain ⟨-, rfl⟩ := hnext'
      exact ⟨hend, fun n => by rw [Cursor.after_of_next_eq hstay]; exact ⟨rfl, hstay⟩⟩

/-- The third pattern is given out behind the second one, which is equal to it. -/
theorem place_of_last_answer_ab :
    ∃ a c c', ({} : Builder).build [[97, 98], [98], [98]] = .ok a ∧ Cursor.Reached a #[97, 98] c ∧
      c.next = (some ⟨2, 1, 2⟩, c') ∧ c'.place = ⟨2, 2, some 3, 2⟩ ∧
      ∃ w s, ([[97, 98], [98], [98]] : List Bytes)[2]? = some w ∧ a.trie.find? w = some s ∧
        c'.place = ⟨2, a.stateAfter [97, 98], some s,
          (([[97, 98], [98], [98]] : List Bytes).take 2).count w + 1⟩ := by
  refine ⟨_, _, _, rfl, .move (.nth 1) .start, rfl, rfl, ?_⟩
  obtain ⟨w, s, hw, hs, -, -, hplace⟩ := (place_of_last_answer (h := #[97, 98])
    (show ({} : Builder).build [[97, 98], [98], [98]] = .ok _ from rfl) (.move (.nth 1) .start)).1
    ⟨2, 1, 2⟩ _ rfl
  exact ⟨w, s, hw, hs, hplace⟩

end Automaton

end AhoCorasick
