/-!
# Rounds of a loop

A loop is a function from the state of a round to what follows it: another round from a new state,
or an answer. `Round.run` plays a bounded number of rounds. `Round.Stops` speaks of the same loop
without a bound and counts its rounds, and `Round.Reaches` of the states that it comes to.
`Round.counted` adds up what the rounds cost.
-/

namespace AhoCorasick

/-- What one round of a loop leads to. -/
inductive Round (σ α : Type) where
  | again (next : σ)
  | done (answer : α)
deriving DecidableEq

namespace Round

variable {σ α : Type}

/-- The answer of a loop that stops within `bound` rounds. -/
@[specialize] def run (body : σ → Round σ α) : (bound : Nat) → σ → Option α
  | 0, _ => none
  | bound + 1, s =>
    match body s with
    | .again s' => run body bound s'
    | .done a => some a

/-- `Stops body n s a`: started from `s`, the loop gives the answer `a` in its `n`th round. -/
inductive Stops (body : σ → Round σ α) : Nat → σ → α → Prop where
  | done {s : σ} {a : α} : body s = .done a → Stops body 1 s a
  | again {s s' : σ} {n : Nat} {a : α} :
      body s = .again s' → Stops body n s' a → Stops body (n + 1) s a

theorem run_eq_some_iff {body : σ → Round σ α} {bound : Nat} {s : σ} {a : α} :
    run body bound s = some a ↔ ∃ n, n ≤ bound ∧ Stops body n s a := by
  induction bound generalizing s with
  | zero =>
    constructor
    · intro h
      cases h
    · rintro ⟨n, hn, h⟩
      cases h <;> omega
  | succ bound ih =>
    cases hb : body s with
    | again s' =>
      simp only [run, hb, ih]
      constructor
      · rintro ⟨n, hn, h⟩
        exact ⟨n + 1, by omega, .again hb h⟩
      · rintro ⟨n, hn, h⟩
        cases h with
        | done h => simp [hb] at h
        | again h h' =>
          cases hb.symm.trans h
          exact ⟨_, by omega, h'⟩
    | done b =>
      simp only [run, hb, Option.some.injEq]
      constructor
      · rintro rfl
        exact ⟨1, by omega, .done hb⟩
      · rintro ⟨n, hn, h⟩
        cases h with
        | done h => cases hb.symm.trans h; rfl
        | again h h' => simp [hb] at h

theorem exists_last {body : σ → Round σ α} {P : σ → Prop}
    (hkeep : ∀ s s', P s → body s = .again s' → P s') {bound : Nat} {s : σ} {a : α} (hs : P s)
    (hrun : run body bound s = some a) : ∃ s', P s' ∧ body s' = .done a := by
  induction bound generalizing s with
  | zero => cases hrun
  | succ bound ih =>
    cases hb : body s with
    | again s' =>
      rw [run, hb] at hrun
      exact ih (hkeep s s' hs hb) hrun
    | done b =>
      rw [run, hb] at hrun
      cases hrun
      exact ⟨s, hs, hb⟩

theorem Stops.unique {body : σ → Round σ α} {m n : Nat} {s : σ} {a a' : α} (h : Stops body m s a)
    (h' : Stops body n s a') : a = a' := by
  induction h generalizing n with
  | done hb =>
    cases h' with
    | done hb' => exact Round.done.inj (hb.symm.trans hb')
    | again hb' _ => simp [hb] at hb'
  | again hb _ ih =>
    cases h' with
    | done hb' => simp [hb] at hb'
    | again hb' hrest =>
      cases hb.symm.trans hb'
      exact ih hrest

/-! ## The states of a loop -/

/-- `Reaches body s s'`: started from `s`, the loop comes to a round from `s'`. -/
inductive Reaches (body : σ → Round σ α) (s : σ) : σ → Prop where
  | refl : Reaches body s s
  | again {s' s'' : σ} : Reaches body s s' → body s' = .again s'' → Reaches body s s''

variable {body : σ → Round σ α} {s s' : σ} {n : Nat} {a : α}

theorem Reaches.keeps {P : σ → Prop} (h : Reaches body s s')
    (hkeep : ∀ s s', P s → body s = .again s' → P s') (hs : P s) : P s' := by
  induction h with
  | refl => exact hs
  | again _ hb ih => exact hkeep _ _ ih hb

theorem Reaches.trans {s'' : σ} (h : Reaches body s s') (h' : Reaches body s' s'') : Reaches body s s'' := by
  induction h' with
  | refl => exact h
  | again _ hb ih => exact ih.again hb

theorem Reaches.stops (h : Reaches body s s') (hstops : Stops body n s' a) :
    ∃ n, Stops body n s a := by
  induction h generalizing n with
  | refl => exact ⟨n, hstops⟩
  | again _ hb ih => exact ih (.again hb hstops)

theorem Stops.exists_last (h : Stops body n s a) : ∃ s', Reaches body s s' ∧ body s' = .done a := by
  have hrun : run body n s = some a := run_eq_some_iff.mpr ⟨n, Nat.le_refl n, h⟩
  exact Round.exists_last (P := Reaches body s) (fun _ _ hs hb => hs.again hb) .refl hrun

theorem exists_stops (measure : σ → Nat) (hless : ∀ s s', body s = .again s' → measure s' < measure s)
    (s : σ) : ∃ n a, Stops body n s a := by
  induction hm : measure s using Nat.strongRecOn generalizing s with
  | ind m ih =>
    cases hb : body s with
    | done a => exact ⟨1, a, .done hb⟩
    | again s' =>
      obtain ⟨n, a, h⟩ := ih (measure s') (hm ▸ hless s s' hb) s' rfl
      exact ⟨n + 1, a, .again hb h⟩

/-! ## Counting -/

/-- Whether a round leads to another one, as a number. -/
def repeats : Round σ α → Nat
  | .again _ => 1
  | .done _ => 0

/-- The loop with a number beside its state, to which each round adds what it costs. -/
def counted (body : σ → Round σ α) (cost : σ → Nat) : σ × Nat → Round (σ × Nat) (α × Nat)
  | (s, n) =>
    match body s with
    | .again s' => .again (s', n + cost s)
    | .done a => .done (a, n + cost s)

variable {cost : σ → Nat} {k k' : Nat}

theorem counted_eq_again_iff :
    counted body cost (s, k) = .again (s', k') ↔ body s = .again s' ∧ k' = k + cost s := by
  rw [counted]
  cases hb : body s with
  | again t => simp [eq_comm]
  | done a => simp

theorem counted_eq_done_iff :
    counted body cost (s, k) = .done (a, k') ↔ body s = .done a ∧ k' = k + cost s := by
  rw [counted]
  cases hb : body s with
  | again t => simp
  | done b => simp [eq_comm]

/-- Counting does not change what a loop does. -/
theorem Stops.counted (h : Stops body n s a) (cost : σ → Nat) (k : Nat) :
    ∃ k', Stops (Round.counted body cost) n (s, k) (a, k') := by
  induction h generalizing k with
  | @done s a hb => exact ⟨k + cost s, .done (counted_eq_done_iff.mpr ⟨hb, rfl⟩)⟩
  | @again s s' n a hb _ ih =>
    obtain ⟨k', hk'⟩ := ih (k + cost s)
    exact ⟨k', .again (counted_eq_again_iff.mpr ⟨hb, rfl⟩) hk'⟩

theorem Reaches.keeps_counted {P : σ → Nat → Prop} (h : Reaches (counted body cost) (s, k) (s', k'))
    (hkeep : ∀ s s' n, P s n → body s = .again s' → P s' (n + cost s)) (hs : P s k) : P s' k' := by
  refine h.keeps (P := fun c => P c.1 c.2) ?_ hs
  rintro ⟨s, n⟩ ⟨s', n'⟩ hP hround
  obtain ⟨hb, rfl⟩ := counted_eq_again_iff.mp hround
  exact hkeep s s' n hP hb

end Round

end AhoCorasick
