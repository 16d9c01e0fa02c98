import AhoCorasick.Proofs.Building
import AhoCorasick.Proofs.Refusal

/-!
# Builds within a limit

A limit refuses the first state beyond it, whichever pattern needs this state, and does nothing else: what is
made with one configuration is made with every other one that admits the same states (`Builder.Widens`). Each
state is asked for before it is made, so there are never more of them than allowed
(`Builder.size_le_of_reaches`).
-/

namespace AhoCorasick

namespace Builder

variable {config config' : Builder} {layout : Layout} {limit n : Nat} {e : BuildError}

theorem permit_limit_eq_ok_iff :
    permit ⟨layout, some limit⟩ n = .ok () ↔ n < limit ∧ n < stateIdCount := by
  simp only [permit, permitId]
  split_ifs <;> simp <;> omega

theorem permit_limit_eq_error (hn : n < stateIdCount) (h : permit ⟨layout, some limit⟩ n = .error e) :
    limit ≤ n ∧ e = .stateLimit limit := by
  simp only [permit, permitId] at h
  split_ifs at h with hlimit hids
  · exact ⟨hlimit, (Except.error.inj h).symm⟩
  · omega

/-- `config'` stores transitions as `config` does and admits every state that `config` admits. -/
structure Widens (config config' : Builder) : Prop where
  layout_eq : config'.layout = config.layout
  permit : ∀ n, config.permit n = .ok () → config'.permit n = .ok ()

theorem widens_unlimited (layout : Layout) (limit : Nat) :
    Widens ⟨layout, some limit⟩ ⟨layout, none⟩ := by
  refine ⟨rfl, fun n hn => ?_⟩
  have hids := (permit_limit_eq_ok_iff.mp hn).2
  simp only [Builder.permit, permitId]
  rw [if_neg (by omega)]

end Builder

namespace Trie

variable {config config' : Builder} {patterns : List Bytes} {t t' : Trie} {s : StateId} {b : UInt8}
  {w : Bytes} {q : Trie × StateId}

/-! ## What is made does not depend on the limit -/

theorem step_widens (h : config.Widens config') (hstep : t.step config s b = .ok q) :
    t.step config' s b = .ok q := by
  cases hchild : t.child? s b with
  | some c =>
    rw [step_of_some config hchild] at hstep
    rw [step_of_some config' hchild, hstep]
  | none =>
    rw [step_of_none config hchild] at hstep
    rw [step_of_none config' hchild]
    cases hpermit : config.permit t.size with
    | error e => simp [hpermit, Except.map] at hstep
    | ok =>
      rw [hpermit] at hstep
      rw [h.permit _ hpermit, ← hstep, grown, grown, h.layout_eq]

theorem path_widens (h : config.Widens config') (hpath : t.path config w = .ok q) :
    t.path config' w = .ok q := by
  induction w using List.reverseRecOn generalizing q with
  | nil => exact hpath
  | append_singleton w b ih =>
    obtain ⟨q₁, hpath, hstep⟩ := path_concat_eq_ok.mp hpath
    exact path_concat_eq_ok.mpr ⟨q₁, ih hpath, step_widens h hstep⟩

theorem insert_widens (h : config.Widens config') (hinsert : t.insert config w = .ok t') :
    t.insert config' w = .ok t' := by
  obtain ⟨q, hpath, heq⟩ := insert_eq_ok.mp hinsert
  exact insert_eq_ok.mpr ⟨q, path_widens h hpath, heq⟩

theorem ofPatterns_widens (h : config.Widens config') (hpatterns : ofPatterns config patterns = .ok t) :
    ofPatterns config' patterns = .ok t := by
  induction patterns using List.reverseRecOn generalizing t with
  | nil =>
    rw [ofPatterns_nil] at hpatterns ⊢
    cases hpermit : config.permit 0 with
    | error e => simp [hpermit, Except.map] at hpatterns
    | ok =>
      rw [hpermit] at hpatterns
      rw [h.permit _ hpermit, h.layout_eq, ← hpatterns]
  | append_singleton patterns w ih =>
    rw [ofPatterns_concat, bind_eq_ok] at hpatterns ⊢
    obtain ⟨t₁, hpatterns, hinsert⟩ := hpatterns
    exact ⟨t₁, ih hpatterns, insert_widens h hinsert⟩

end Trie

theorem Reading.Step.size_le {layout : Layout} {limit : Nat} {r r' : Reading}
    (h : Reading.Step ⟨layout, some limit⟩ r r') (hle : r.trie.size ≤ limit) : r'.trie.size ≤ limit := by
  have hadded : ∀ {t t' : Trie} {depth : Nat}, t.addNode ⟨layout, some limit⟩ depth = .ok t' →
      t'.size ≤ limit := by
    intro t t' depth hnode
    rw [Trie.size_addNode hnode]
    exact (Builder.permit_limit_eq_ok_iff.mp (Trie.addNode_eq_ok.mp hnode).1).1
  cases h with
  | makeRoot hnode => exact hadded hnode
  | make _ hnode => exact hadded hnode
  | turn => exact hle
  | move => exact hle
  | record => exact (Trie.size_record _ _ _).trans_le hle
  | connect => exact (Trie.size_setChild _ _ _ _).trans_le hle

namespace Builder

variable {config config' : Builder} {layout : Layout} {limit n : Nat} {patterns : List Bytes}
  {a : Automaton} {t : Trie} {e : BuildError} {m : Building}

theorem build_widens (h : config.Widens config') (hbuild : config.build patterns = .ok a) :
    config'.build patterns = .ok a := by
  obtain ⟨t, ht, heq⟩ := build_eq_ok.mp hbuild
  exact build_eq_ok.mpr ⟨t, Trie.ofPatterns_widens h ht, heq⟩

/-! ## The number of states -/

theorem Admits.le_limit (h : Admits ⟨layout, some limit⟩ n) : n ≤ limit := by
  by_contra hlt
  have hpermit := h limit (by omega)
  exact Nat.lt_irrefl limit (permit_limit_eq_ok_iff.mp hpermit).1

theorem Refuses.limit_lt (h : Refuses ⟨layout, some limit⟩ n e) (hn : n ≤ stateIdCount) :
    limit < n ∧ e = .stateLimit limit := by
  obtain ⟨k, hk, -, hrefused⟩ := h
  obtain ⟨hle, rfl⟩ := permit_limit_eq_error (by omega) hrefused
  exact ⟨by omega, rfl⟩

theorem size_le_of_ofPatterns (h : Trie.ofPatterns ⟨layout, some limit⟩ patterns = .ok t) :
    t.size ≤ limit := by
  have hgrows := Trie.grows_ofPatterns ⟨layout, some limit⟩ patterns
  rw [h] at hgrows
  rw [(Trie.holds_ofPatterns h).size_eq]
  exact Admits.le_limit hgrows

theorem size_le_of_reaches
    (h : Round.Reaches (Building.round ⟨layout, some limit⟩) (.start patterns) m) :
    m.automaton.size ≤ limit := by
  refine (Building.reaches_keeps (P := fun m => m.automaton.size ≤ limit) h ?_ (Nat.zero_le _)).2
  intro m m' hsound hle hstep
  cases hstep with
  | reading hstep => exact hstep.size_le hle
  | handOver hround =>
    cases hsound with
    | reading hsound => exact size_le_of_ofPatterns (hsound.answer hround)
  | linking hstep =>
    exact (congrArg Trie.size hstep.trie_eq).trans_le hle

/-! ## Main result -/

/-- **Builds within a limit.** With a limit a build fails exactly if the patterns have more distinct prefixes, and then
its error names the limit; if it succeeds, the limit has made no difference. There are never more states than allowed,
in the middle of a build that fails as well. -/
theorem build_within_limit (layout : Layout) (limit : Nat) (patterns : List Bytes) :
    ((prefixes patterns).length < stateIdCount →
      ((∃ e, build ⟨layout, some limit⟩ patterns = .error e) ↔ limit < (prefixes patterns).length) ∧
      ∀ e, build ⟨layout, some limit⟩ patterns = .error e → e = .stateLimit limit ∧ e.limit = limit ∧
        e.message = "automaton exceeds the state limit of " ++ toString limit) ∧
    (∀ a, build ⟨layout, some limit⟩ patterns = .ok a →
      a.size ≤ limit ∧ build ⟨layout, none⟩ patterns = .ok a) ∧
    (∃ n, Round.Stops (Building.round ⟨layout, some limit⟩) n (.start patterns)
      (buildLogged ⟨layout, some limit⟩ patterns)) ∧
    ∀ m, Round.Reaches (Building.round ⟨layout, some limit⟩) (.start patterns) m →
      m.automaton.size ≤ limit := by
  have hgrows := grows_build ⟨layout, some limit⟩ patterns
  refine ⟨fun hids => ?_, fun a ha => ?_, Building.stops_start _ _, fun m => size_le_of_reaches⟩
  · refine ⟨⟨?_, fun hlt => ?_⟩, fun e he => ?_⟩
    · rintro ⟨e, he⟩
      rw [he] at hgrows
      exact (Refuses.limit_lt hgrows hids.le).1
    · cases hbuild : build ⟨layout, some limit⟩ patterns with
      | error e => exact ⟨e, rfl⟩
      | ok a =>
        rw [hbuild] at hgrows
        exact absurd (Admits.le_limit hgrows) (by omega)
    · rw [he] at hgrows
      obtain ⟨-, rfl⟩ := Refuses.limit_lt hgrows hids.le
      exact ⟨rfl, rfl, rfl⟩
  · rw [ha] at hgrows
    have hsize : a.size = (prefixes patterns).length := (Automaton.recognizes_of_build ha).holds.size_eq
    exact ⟨hsize.trans_le (Admits.le_limit hgrows), build_widens (widens_unlimited layout limit) ha⟩

/-- The second pattern needs the fourth state. -/
theorem build_within_limit_ab :
    (∃ e, build ⟨.sparse, some 3⟩ [[97, 98], [98]] = .error e ∧ e = .stateLimit 3 ∧ e.limit = 3 ∧
      e.message = "automaton exceeds the state limit of 3") ∧
      ∃ a, build ⟨.sparse, some 4⟩ [[97, 98], [98]] = .ok a ∧ a.size ≤ 4 ∧
        build ⟨.sparse, none⟩ [[97, 98], [98]] = .ok a ∧
        ∀ m, Round.Reaches (Building.round ⟨.sparse, some 4⟩) (.start [[97, 98], [98]]) m →
          m.automaton.size ≤ 4 := by
  obtain ⟨hfails, herror⟩ := (build_within_limit .sparse 3 [[97, 98], [98]]).1 (by decide)
  obtain ⟨-, hok, -, hmoments⟩ := build_within_limit .sparse 4 [[97, 98], [98]]
  obtain ⟨e, he⟩ := hfails.mpr (by decide)
  obtain ⟨hsize, hsame⟩ := hok _ rfl
  exact ⟨⟨e, he, herror e he⟩, _, rfl, hsize, hsame, hmoments⟩

end Builder

end AhoCorasick
