import AhoCorasick.Build
import AhoCorasick.Proofs.Trie

/-!
# When a build is refused

A build makes one state for each distinct prefix of the patterns, one after another, and asks before each one.
So it succeeds exactly if every number of states below the number of prefixes may be exceeded, and otherwise
it fails with the first refusal (`Builder.grows_buildLogged`). Which patterns share which prefixes, and where
in a pattern the refusal comes, makes no difference. If no limit is set, a build fails only when the ids run out
(`Builder.build_default_iff`).
-/

namespace AhoCorasick

namespace Builder

variable {α β : Type} {config config' : Builder} {m n : Nat} {e e' : BuildError}

/-! ## Making states one by one -/

/-- States can be made until there are `n`. -/
def Admits (config : Builder) (n : Nat) : Prop := ∀ k < n, config.permit k = .ok ()

/-- Before there are `n` states, one is refused, and the first refusal is `e`. -/
def Refuses (config : Builder) (n : Nat) (e : BuildError) : Prop :=
  ∃ k < n, config.Admits k ∧ config.permit k = .error e

/-- A computation has made states until there were `n`, or ended with the first refusal on the way. -/
def Grows (config : Builder) (n : Nat) : Except BuildError α → Prop
  | .ok _ => config.Admits n
  | .error e => config.Refuses n e

theorem Admits.succ (h : config.Admits n) (hn : config.permit n = .ok ()) : config.Admits (n + 1) := by
  intro k hk
  rcases Nat.lt_succ_iff_lt_or_eq.mp hk with hlt | rfl
  · exact h k hlt
  · exact hn

theorem Refuses.mono (h : config.Refuses m e) (hle : m ≤ n) : config.Refuses n e := by
  obtain ⟨k, hk, hadmits, hrefused⟩ := h
  exact ⟨k, Nat.lt_of_lt_of_le hk hle, hadmits, hrefused⟩

theorem Refuses.not_admits (h : config.Refuses n e) : ¬config.Admits n := by
  obtain ⟨k, hk, -, hrefused⟩ := h
  intro hadmits
  rw [hadmits k hk] at hrefused
  cases hrefused

theorem Refuses.unique (h : config.Refuses n e) (h' : config.Refuses n e') : e = e' := by
  obtain ⟨k, -, hadmits, hrefused⟩ := h
  obtain ⟨k', -, hadmits', hrefused'⟩ := h'
  rcases Nat.lt_trichotomy k k' with hlt | rfl | hlt
  · rw [hadmits' k hlt] at hrefused
    cases hrefused
  · exact Except.error.inj (hrefused.symm.trans hrefused')
  · rw [hadmits k' hlt] at hrefused'
    cases hrefused'

theorem Grows.bind {x : Except BuildError α} {f : α → Except BuildError β} (hx : config.Grows m x)
    (hle : m ≤ n) (hf : ∀ a, x = .ok a → config.Admits m → config.Grows n (f a)) :
    config.Grows n (x >>= f) := by
  cases x with
  | error e => exact Refuses.mono hx hle
  | ok a => exact hf a rfl hx

theorem permit_congr (h : config.stateLimit = config'.stateLimit) : config.permit = config'.permit := by
  funext states
  rw [permit, permit, h]

/-- Computations that make the same number of states, asking for the same permits, end alike. -/
theorem Grows.agree {x : Except BuildError α} {y : Except BuildError β} (hx : config.Grows n x)
    (hy : config'.Grows n y) (hpermit : config.permit = config'.permit) :
    (∃ e, x = .error e ∧ y = .error e) ∨ ∃ a b, x = .ok a ∧ y = .ok b := by
  have hadmits : config'.Admits n → config.Admits n := fun h k hk => hpermit ▸ h k hk
  have hrefuses : ∀ e, config'.Refuses n e → config.Refuses n e := by
    rintro e ⟨k, hk, hbefore, hrefused⟩
    exact ⟨k, hk, fun j hj => hpermit ▸ hbefore j hj, hpermit ▸ hrefused⟩
  cases x with
  | error e =>
    cases y with
    | error e' =>
      obtain rfl : e = e' := Refuses.unique hx (hrefuses e' hy)
      exact Or.inl ⟨e, rfl, rfl⟩
    | ok b => exact absurd (hadmits hy) (Refuses.not_admits hx)
  | ok a =>
    cases y with
    | error e' => exact absurd hx (Refuses.not_admits (hrefuses e' hy))
    | ok b => exact Or.inr ⟨a, b, rfl, rfl⟩

end Builder

/-! ## Distinct words -/

theorem length_eraseDups_concat (words : List Bytes) (w : Bytes) :
    (words ++ [w]).eraseDups.length =
      if w ∈ words then words.eraseDups.length else words.eraseDups.length + 1 := by
  rw [eraseDups_concat]
  split_ifs
  · rfl
  · rw [List.length_append, List.length_singleton]

theorem length_eraseDups_le_append (words more : List Bytes) :
    words.eraseDups.length ≤ (words ++ more).eraseDups.length := by
  rw [List.eraseDups_append, List.length_append]
  exact Nat.le_add_right _ _

namespace Trie

variable {config : Builder} {t : Trie} {words patterns : List Bytes} {s : StateId} {b : UInt8} {w : Bytes}

/-! ## The states that a trie needs -/

theorem grows_step (h : t.Holds words.eraseDups patterns) (hs : words.eraseDups[s]? = some w)
    (hadmits : config.Admits words.eraseDups.length) :
    config.Grows (words ++ [w ++ [b]]).eraseDups.length (t.step config s b) := by
  rw [length_eraseDups_concat]
  cases hchild : t.child? s b with
  | some c =>
    have hmem : w ++ [b] ∈ words :=
      List.mem_eraseDups.mp (List.mem_of_getElem? ((h.child_iff hs).mp hchild))
    rw [step_of_some config hchild, if_pos hmem]
    exact hadmits
  | none =>
    have hnew : w ++ [b] ∉ words := fun hmem => h.not_mem hs hchild (List.mem_eraseDups.mpr hmem)
    rw [step_of_none config hchild, if_neg hnew, h.size_eq]
    cases hpermit : config.permit words.eraseDups.length with
    | error e => exact ⟨_, Nat.lt_succ_self _, hadmits, hpermit⟩
    | ok => exact hadmits.succ hpermit

theorem grows_path (h : t.Holds words.eraseDups patterns) (hroot : [] ∈ words)
    (hadmits : config.Admits words.eraseDups.length) (w : Bytes) :
    config.Grows (words ++ prefixesOf w).eraseDups.length (t.path config w) := by
  induction w using List.reverseRecOn with
  | nil =>
    rw [prefixesOf_nil, length_eraseDups_concat, if_pos hroot]
    exact hadmits
  | append_singleton w b ih =>
    rw [path_concat, prefixesOf_concat, ← List.append_assoc]
    refine ih.bind (length_eraseDups_le_append _ _) fun q hq hadmits' => ?_
    obtain ⟨hholds, hs⟩ := h.path hroot hq
    exact grows_step hholds hs hadmits'

theorem grows_insert (h : t.Holds words.eraseDups patterns) (hroot : [] ∈ words)
    (hadmits : config.Admits words.eraseDups.length) (w : Bytes) :
    config.Grows (words ++ prefixesOf w).eraseDups.length (t.insert config w) :=
  (grows_path h hroot hadmits w).bind (Nat.le_refl _) fun _ _ hadmits' => hadmits'

theorem grows_ofPatterns (config : Builder) (patterns : List Bytes) :
    config.Grows (prefixes patterns).length (ofPatterns config patterns) := by
  induction patterns using List.reverseRecOn with
  | nil =>
    have hnone : config.Admits 0 := fun k hk => absurd hk (Nat.not_lt_zero k)
    rw [ofPatterns_nil]
    cases hpermit : config.permit 0 with
    | error e => exact ⟨0, Nat.zero_lt_one, hnone, hpermit⟩
    | ok => exact hnone.succ hpermit
  | append_singleton patterns w ih =>
    rw [ofPatterns_concat, prefixes_eq, prefixesRead_concat]
    refine ih.bind (length_eraseDups_le_append _ _) fun t ht hadmits => ?_
    exact grows_insert (holds_ofPatterns ht) List.mem_cons_self hadmits w

end Trie

namespace Builder

/-- **A build succeeds exactly if as many states are admitted as the patterns have distinct prefixes**, and
otherwise fails with the first refusal. -/
theorem grows_buildLogged (config : Builder) (patterns : List Bytes) :
    config.Grows (prefixes patterns).length (config.buildLogged patterns) :=
  (Trie.grows_ofPatterns config patterns).bind (Nat.le_refl _) fun _ _ hadmits => hadmits

theorem grows_build (config : Builder) (patterns : List Bytes) :
    config.Grows (prefixes patterns).length (config.build patterns) := by
  have hgrows := grows_buildLogged config patterns
  unfold build
  cases hx : config.buildLogged patterns <;> rw [hx] at hgrows <;> exact hgrows

theorem permit_default_eq_ok_iff {n : Nat} : permit {} n = .ok () ↔ n < stateIdCount := by
  simp only [permit, permitId]
  split_ifs <;> simp <;> omega

theorem build_default_iff {patterns : List Bytes} :
    (∃ a, build {} patterns = .ok a) ↔ (prefixes patterns).length ≤ stateIdCount := by
  have hgrows := grows_build {} patterns
  cases hbuild : build {} patterns with
  | ok a =>
    rw [hbuild] at hgrows
    refine iff_of_true ⟨a, rfl⟩ ?_
    by_contra hmore
    exact Nat.lt_irrefl _ (permit_default_eq_ok_iff.mp (hgrows stateIdCount (by omega)))
  | error e =>
    rw [hbuild] at hgrows
    obtain ⟨k, hk, -, hrefused⟩ := hgrows
    refine iff_of_false (by simp) fun hle => ?_
    rw [permit_default_eq_ok_iff.mpr (by omega)] at hrefused
    cases hrefused

end Builder

end AhoCorasick
