import AhoCorasick.Build
import AhoCorasick.Proofs.Automaton
import AhoCorasick.Proofs.Moments
import AhoCorasick.Proofs.Reading

/-!
# A build moment by moment gives its answer

Both passes are sound at each of their moments, and the second one begins with the trie that the first one ends
with (`Building.Sound`). So the rounds end with the answer of `Builder.buildLogged` (`Building.stops_start`), and
what is proved of the moments of a build is proved of this build.
-/

namespace AhoCorasick

namespace Building

variable {config : Builder} {patterns : List Bytes} {m m' : Building} {r r' : Reading} {l : Linking}
  {moment : Linking.Moment} {t : Trie} {n : Nat}

/-! ## The moments of a build -/

/-- One of the two passes goes on, or the second one begins. -/
inductive Step (config : Builder) : Building → Building → Prop where
  | reading {r r' : Reading} : Reading.Step config r r' → Step config (.reading r) (.reading r')
  | handOver {r : Reading} {t : Trie} : r.round config = .done (.ok t) →
      Step config (.reading r) (.linking (.start t))
  | linking {m m' : Linking.Moment} : Linking.Moment.Step m m' → Step config (.linking m) (.linking m')

theorem step_of_round (hround : m.round config = .again m') : Step config m m' := by
  cases m with
  | reading r =>
    cases hr : r.round config with
    | again r' =>
      simp only [round, hr, Round.again.injEq] at hround
      exact hround ▸ .reading (Reading.step_of_round hr)
    | done x =>
      cases x with
      | error e => simp [round, hr] at hround
      | ok t =>
        simp only [round, hr, Round.again.injEq] at hround
        exact hround ▸ .handOver hr
  | linking moment =>
    cases hm : moment.round with
    | again m' =>
      simp only [round, hm, Round.again.injEq] at hround
      exact hround ▸ .linking (Linking.Moment.round_eq_again_iff.mp hm)
    | done l => simp [round, hm] at hround

/-- Each pass is where it should be. -/
inductive Sound (config : Builder) (patterns : List Bytes) : Building → Prop where
  | reading {r : Reading} : Reading.Sound config patterns r → Sound config patterns (.reading r)
  | linking {t : Trie} {m : Linking.Moment} : Trie.ofPatterns config patterns = .ok t →
      Linking.Moment.Sound t (prefixes patterns) patterns m → Sound config patterns (.linking m)

theorem Sound.step (h : Sound config patterns m) (hstep : Step config m m') : Sound config patterns m' := by
  cases hstep with
  | reading hstep =>
    cases h with
    | reading h => exact .reading (h.step hstep)
  | @handOver r t hround =>
    cases h with
    | reading h => exact .linking (h.answer hround) (.start t _ _)
  | linking hstep =>
    cases h with
    | linking ht h => exact .linking ht (h.step (Trie.holds_ofPatterns ht) hstep)

theorem reaches_keeps {P : Building → Prop} (h : Round.Reaches (round config) (start patterns) m)
    (hkeep : ∀ {m m'}, Sound config patterns m → P m → Step config m m' → P m') (hstart : P (start patterns)) :
    Sound config patterns m ∧ P m := by
  refine h.keeps (P := fun m => Sound config patterns m ∧ P m) ?_ ⟨.reading .makeRoot, hstart⟩
  rintro m m' ⟨hsound, hm⟩ hround
  have hstep := step_of_round hround
  exact ⟨hsound.step hstep, hkeep hsound hm hstep⟩

theorem sound_of_reaches (h : Round.Reaches (round config) (start patterns) m) : Sound config patterns m :=
  (reaches_keeps (P := fun _ => True) h (fun _ _ _ => trivial) trivial).1

/-! ## The answer -/

theorem reaches_reading (h : Round.Reaches (Reading.round config) r r') :
    Round.Reaches (round config) (.reading r) (.reading r') := by
  induction h with
  | refl => exact .refl
  | again _ hround ih => exact ih.again (by simp [round, hround])

theorem stops_linking (h : Round.Stops Linking.Moment.round n moment l) :
    Round.Stops (round config) n (.linking moment) (.ok ⟨l.automaton, l.records.toList.map .linked ++
      [.built l.automaton.patterns l.automaton.size config.layout]⟩) := by
  induction h with
  | done hround => exact .done (by simp [round, hround])
  | again hround _ ih => exact .again (by simp [round, hround]) ih

theorem stops_start (config : Builder) (patterns : List Bytes) :
    ∃ n, Round.Stops (round config) n (start patterns) (config.buildLogged patterns) := by
  obtain ⟨n, hstops⟩ := Reading.stops_start config patterns
  obtain ⟨r, hreaches, hdone⟩ := hstops.exists_last
  cases ht : Trie.ofPatterns config patterns with
  | error e =>
    rw [ht] at hdone
    have hanswer : config.buildLogged patterns = .error e := by
      rw [Builder.buildLogged, ht]
      rfl
    rw [hanswer]
    exact (reaches_reading hreaches).stops (.done (by simp [round, hdone]))
  | ok t =>
    rw [ht] at hdone
    obtain ⟨k, hk⟩ := Linking.Moment.stops_start (Trie.holds_ofPatterns ht)
    have hagain : (Building.reading r).round config = .again (.linking (.start t)) := by simp [round, hdone]
    rw [Builder.buildLogged, ht]
    exact (reaches_reading hreaches).stops (.again hagain (stops_linking hk))

theorem eq_of_round_done {x : Built} (hround : m.round config = .done (.ok x)) :
    m.automaton = x.automaton ∧
      x.log = m.log ++ [.built x.automaton.patterns x.automaton.size config.layout] := by
  cases m with
  | reading r =>
    cases hr : r.round config with
    | again r' => simp [round, hr] at hround
    | done y => cases y <;> simp [round, hr] at hround
  | linking moment =>
    cases hm : moment.round with
    | again m' => simp [round, hm] at hround
    | done l =>
      simp only [round, hm, Round.done.injEq, Except.ok.injEq] at hround
      subst hround
      rw [Linking.Moment.eq_of_round_done hm]
      exact ⟨rfl, rfl⟩

theorem exists_moment {x : Built} (h : config.buildLogged patterns = .ok x) :
    ∃ m, Round.Reaches (round config) (start patterns) m ∧ m.automaton = x.automaton ∧
      x.log = m.log ++ [.built x.automaton.patterns x.automaton.size config.layout] := by
  obtain ⟨n, hstops⟩ := stops_start config patterns
  rw [h] at hstops
  obtain ⟨m, hreaches, hdone⟩ := hstops.exists_last
  exact ⟨m, hreaches, eq_of_round_done hdone⟩

theorem exists_moment_of_build {a : Automaton} (h : config.build patterns = .ok a) :
    ∃ m, Round.Reaches (round config) (start patterns) m ∧ m.automaton = a := by
  cases hx : config.buildLogged patterns with
  | error e => simp [Builder.build, hx, Except.map] at h
  | ok x =>
    obtain rfl : x.automaton = a := by simpa [Builder.build, hx, Except.map] using h
    obtain ⟨m, hreaches, hm, -⟩ := exists_moment hx
    exact ⟨m, hreaches, hm⟩

end Building

end AhoCorasick
