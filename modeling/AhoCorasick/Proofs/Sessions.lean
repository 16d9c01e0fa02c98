import AhoCorasick.Listing
import AhoCorasick.Proofs.Places

/-!
# Cursors answer like listings

A cursor `Reads` a listing if the matches that are left to it are those that are left in the listing. Every move
keeps this and has the same answer on both sides (`Cursor.Reads.run`). A session `Follows` one of listings if
their configurations and automata are the same and each cursor reads the listing at its position; every command
keeps that (`Session.Follows.step`), and so do all commands together (`Session.Follows.run`).
-/

namespace AhoCorasick

/-! ## Listings -/

namespace Listing

@[simp] theorem left_skip (l : Listing) (n : Nat) : (l.skip n).left = l.left.drop n := by
  rw [left, left, List.drop_drop]
  show l.items.drop (min (l.given + n) l.items.length) = l.items.drop (l.given + n)
  rcases Nat.le_total (l.given + n) l.items.length with hle | hle
  · rw [Nat.min_eq_left hle]
  · rw [Nat.min_eq_right hle, List.drop_length, List.drop_eq_nil_of_le hle]

theorem getElem?_given (l : Listing) : l.items[l.given]? = l.left.head? := by
  rw [left, List.head?_drop]

theorem count_eq (l : Listing) : l.count = l.left.length := by
  rw [count, left, List.length_drop]

theorem drop_left (l : Listing) : l.left.drop l.items.length = [] := by
  refine List.drop_eq_nil_of_le ?_
  rw [left, List.length_drop]
  exact Nat.sub_le _ _

end Listing

/-! ## Moves -/

namespace Cursor

variable {c : Cursor} {l : Listing} {patterns : List Bytes} {ms : List Match}

theorem Left.nth (hc : c.Left patterns ms) (n : Nat) :
    ∃ c', c.nth n = (ms[n]?, c') ∧ c'.Left patterns (ms.drop (n + 1)) := by
  induction n generalizing c ms with
  | zero =>
    obtain ⟨c', hnext, hc'⟩ := hc.next
    rw [List.head?_eq_getElem?] at hnext
    rw [← List.drop_one] at hc'
    exact ⟨c', hnext, hc'⟩
  | succ n ih =>
    obtain ⟨c₁, hnext, hc₁⟩ := hc.next
    cases ms with
    | nil => exact ⟨c₁, by simp [Cursor.nth, hnext], hc₁⟩
    | cons m ms =>
      obtain ⟨c', hnth, hc'⟩ := ih hc₁
      exact ⟨c', by simpa [Cursor.nth, hnext] using hnth, hc'⟩

theorem Left.count (hc : c.Left patterns ms) : c.count = ms.length := by
  obtain ⟨c', hrest, -⟩ := hc.rest
  rw [Cursor.count, hrest]

/-- The same matches are left to a cursor and in a listing. -/
def Reads (c : Cursor) (l : Listing) : Prop := ∃ patterns, c.Left patterns l.left

end Cursor

/-- An answer is the expected one, where there is one. -/
def Fits (reply : Reply) (expected : Option Reply) : Prop := ∀ r ∈ expected, reply = r

theorem fits_some (reply : Reply) : Fits reply (some reply) := by
  intro r hr
  exact Option.some.inj hr

namespace Cursor

variable {c : Cursor} {l : Listing}

theorem Reads.run (h : c.Reads l) (move : Move) :
    Fits (move.run c).1 (l.run move).1 ∧ (move.run c).2.Reads (l.run move).2 := by
  obtain ⟨patterns, hc⟩ := h
  cases move with
  | next =>
    obtain ⟨c', hnext, hc'⟩ := hc.next
    refine ⟨?_, patterns, ?_⟩
    · simp [Move.run, Listing.run, Listing.next, hnext, Listing.getElem?_given, fits_some]
    · simpa [Move.run, Listing.run, Listing.next, hnext] using hc'
  | nth n =>
    obtain ⟨c', hnth, hc'⟩ := hc.nth n
    refine ⟨?_, patterns, ?_⟩
    · simp [Move.run, Listing.run, Listing.nth, Listing.next, hnth, Listing.getElem?_given, fits_some]
    · simpa [Move.run, Listing.run, Listing.nth, Listing.next, hnth] using hc'
  | take n =>
    obtain ⟨c', htake, hc'⟩ := hc.take n
    refine ⟨?_, patterns, ?_⟩
    · simp [Move.run, Listing.run, Listing.take, htake, fits_some]
    · simpa [Move.run, Listing.run, Listing.take, htake] using hc'
  | rest =>
    obtain ⟨c', hrest, hc'⟩ := hc.rest
    refine ⟨?_, patterns, ?_⟩
    · simp [Move.run, Listing.run, Listing.rest, hrest, fits_some]
    · simpa [Move.run, Listing.run, Listing.rest, hrest, Listing.drop_left] using hc'
  | count =>
    refine ⟨?_, patterns, hc⟩
    simp [Move.run, Listing.run, hc.count, Listing.count_eq, fits_some]
  | place => exact ⟨fun r hr => absurd hr (Option.not_mem_none r), patterns, hc⟩

end Cursor

/-! ## Searches -/

namespace Automaton

variable {a : Automaton} {patterns : List Bytes}

theorem Recognizes.isMatch_eq (ha : a.Recognizes patterns) (h : Haystack) :
    a.isMatch h = !(a.search h).isEmpty := by
  obtain ⟨c', hnext, -⟩ := (Cursor.left_cursor ha h).next
  rw [isMatch, hnext, ha.search_eq h]
  cases occurrences patterns h.toList <;> rfl

theorem Recognizes.reads_cursor (ha : a.Recognizes patterns) (h : Haystack) :
    (a.cursor h).Reads { items := a.search h } := by
  refine ⟨patterns, ?_⟩
  rw [Listing.left, List.drop_zero, ha.search_eq h]
  exact Cursor.left_cursor ha h

theorem Recognizes.answer_eq (ha : a.Recognizes patterns) (query : Query) :
    query.answer a = ListSession.answer a query := by
  cases query with
  | search h => rfl
  | isMatch h => rw [Query.answer, ListSession.answer, ha.isMatch_eq h]
  | patternLength id => rfl

end Automaton

/-! ## Sessions -/

theorem rel_bind {α β γ δ : Type} {R : α → β → Prop} {S : γ → δ → Prop} {x : Option α} {y : Option β}
    {f : α → Option γ} {g : β → Option δ} (h : Option.Rel R x y)
    (hfg : ∀ a b, R a b → Option.Rel S (f a) (g b)) : Option.Rel S (x >>= f) (y >>= g) := by
  cases h with
  | none => exact .none
  | some h => exact hfg _ _ h

theorem rel_eq {α : Type} (x : Option α) : Option.Rel (· = ·) x x := by
  cases x with
  | none => exact .none
  | some a => exact .some rfl

theorem rel_mono {α β : Type} {R S : α → β → Prop} {x : Option α} {y : Option β} (h : Option.Rel R x y)
    (hRS : ∀ a b, R a b → S a b) : Option.Rel S x y := by
  cases h with
  | none => exact .none
  | some h => exact .some (hRS _ _ h)

/-- The configurations and the automata are the same, every automaton has been built, and every cursor reads
the listing at its position. -/
structure Session.Follows (s : Session) (d : ListSession) : Prop where
  config_eq : s.config = d.config
  automata_eq : s.automata = d.automata
  recognizes : ∀ a ∈ s.automata, ∃ patterns, a.Recognizes patterns
  size_eq : s.cursors.size = d.listings.size
  reads : ∀ i : Nat, Option.Rel Cursor.Reads s.cursors[i]? d.listings[i]?

/-- The outcomes of a command: the answer is the expected one, and the sessions go on alike. -/
def Session.Agrees (x : Session × Reply) (y : ListSession × Option Reply) : Prop :=
  x.1.Follows y.1 ∧ Fits x.2 y.2

namespace Session.Follows

variable {s : Session} {d : ListSession}

theorem configure (h : s.Follows d) (config : Builder) :
    Agrees (s.configure config) (d.configure config) :=
  ⟨⟨rfl, h.automata_eq, h.recognizes, h.size_eq, h.reads⟩, fits_some _⟩

theorem build (h : s.Follows d) (patterns : List Bytes) : Agrees (s.build patterns) (d.build patterns) := by
  cases hbuild : s.config.build patterns with
  | error e =>
    have hbuild' : d.config.build patterns = .error e := h.config_eq ▸ hbuild
    simp only [Session.build, ListSession.build, hbuild, hbuild']
    exact ⟨h, fits_some _⟩
  | ok a =>
    have hbuild' : d.config.build patterns = .ok a := h.config_eq ▸ hbuild
    simp only [Session.build, ListSession.build, hbuild, hbuild', ← h.automata_eq]
    refine ⟨⟨h.config_eq, rfl, fun a' ha' => ?_, h.size_eq, h.reads⟩, fits_some _⟩
    rcases Array.mem_push.mp ha' with ha' | rfl
    · exact h.recognizes a' ha'
    · exact ⟨patterns, Automaton.recognizes_of_build hbuild⟩

theorem addCursor (h : s.Follows d) {c : Cursor} {l : Listing} (hread : c.Reads l) :
    Agrees (s.addCursor c) (d.addListing l) := by
  refine ⟨⟨h.config_eq, h.automata_eq, h.recognizes, ?_, fun i => ?_⟩, ?_⟩
  · simp [Session.addCursor, ListSession.addListing, h.size_eq]
  · simp only [Session.addCursor, ListSession.addListing, Array.getElem?_push, h.size_eq]
    split_ifs
    · exact .some hread
    · exact h.reads i
  · rw [Session.addCursor, ListSession.addListing, h.size_eq]
    exact fits_some _

theorem setCursor (h : s.Follows d) {c : Cursor} {l : Listing} (hread : c.Reads l) (k : Nat) :
    Follows { s with cursors := s.cursors.setIfInBounds k c }
      { d with listings := d.listings.setIfInBounds k l } := by
  refine ⟨h.config_eq, h.automata_eq, h.recognizes, ?_, fun i => ?_⟩
  · simp [h.size_eq]
  · simp only [Array.getElem?_setIfInBounds, h.size_eq]
    split_ifs
    · exact .some hread
    · exact .none
    · exact h.reads i

theorem automaton?_eq (h : s.Follows d) (i : Option Nat) : s.automaton? i = d.automaton? i := by
  rw [Session.automaton?, ListSession.automaton?, h.automata_eq]

theorem recognizes_of_automaton? (h : s.Follows d) {i : Option Nat} {a : Automaton}
    (ha : s.automaton? i = some a) : ∃ patterns, a.Recognizes patterns := by
  obtain ⟨k, -, hk⟩ := Option.bind_eq_some_iff.mp ha
  exact h.recognizes a (Array.mem_of_getElem? hk)

theorem step (h : s.Follows d) (command : Command) : Option.Rel Agrees (s.step command) (d.step command) := by
  cases command with
  | newBuilder => exact .some (h.configure {})
  | setLayout layout =>
    rw [Session.step, ListSession.step, ← h.config_eq]
    exact .some (h.configure _)
  | setStateLimit limit =>
    rw [Session.step, ListSession.step, ← h.config_eq]
    exact .some (h.configure _)
  | build patterns => exact .some (h.build patterns)
  | ask i query =>
    rw [Session.step, ListSession.step, ← h.automaton?_eq]
    cases hi : s.automaton? i with
    | none => exact .none
    | some a =>
      obtain ⟨patterns, ha⟩ := h.recognizes_of_automaton? hi
      rw [Option.map_some, Option.map_some, ha.answer_eq]
      exact .some ⟨h, fits_some _⟩
  | openCursor i text =>
    rw [Session.step, ListSession.step, ← h.automaton?_eq]
    cases hi : s.automaton? i with
    | none => exact .none
    | some a =>
      obtain ⟨patterns, ha⟩ := h.recognizes_of_automaton? hi
      exact .some (h.addCursor (ha.reads_cursor text))
  | copyCursor i =>
    rw [Session.step, ListSession.step, ← h.size_eq]
    refine rel_bind (rel_eq _) fun k k' hk => ?_
    subst hk
    exact rel_bind (h.reads k) fun c l hread => .some (h.addCursor hread)
  | move i move =>
    rw [Session.step, ListSession.step, ← h.size_eq]
    refine rel_bind (rel_eq _) fun k k' hk => ?_
    subst hk
    refine rel_bind (h.reads k) fun c l hread => ?_
    obtain ⟨hfits, hread'⟩ := hread.run move
    exact .some ⟨h.setCursor hread' k, hfits⟩

theorem run (h : s.Follows d) (commands : List Command) :
    Option.Rel (fun x y => x.1.Follows y.1 ∧ List.Forall₂ Fits x.2 y.2) (s.run commands) (d.run commands) := by
  induction commands generalizing s d with
  | nil => exact .some ⟨h, .nil⟩
  | cons command commands ih =>
    refine rel_bind (h.step command) fun x y hstep => ?_
    refine rel_bind (ih hstep.1) fun x' y' hrest => ?_
    exact .some ⟨hrest.1, .cons hstep.2 hrest.2⟩

end Session.Follows

namespace Session

theorem follows_start : ({} : Session).Follows {} :=
  ⟨rfl, rfl, fun _ ha => absurd ha (Array.not_mem_empty _), rfl, fun _ => .none⟩

/-! ## What a command leaves alone -/

variable {s s' : Session} {command : Command} {reply : Reply}

theorem cursors_step (hstep : s.step command = some (s', reply)) :
    s'.cursors = s.cursors ∨ (∃ c, s'.cursors = s.cursors.push c) ∨
      ∃ i move k c, command = .move i move ∧ position? s.cursors.size i = some k ∧
        s'.cursors = s.cursors.setIfInBounds k c := by
  cases command with
  | newBuilder | setLayout layout | setStateLimit limit =>
    cases hstep
    exact Or.inl rfl
  | build patterns =>
    rw [step, Option.some.injEq, build] at hstep
    split at hstep
    · cases hstep
      exact Or.inl rfl
    · cases hstep
      exact Or.inl rfl
  | ask i query =>
    obtain ⟨a, -, ha⟩ := Option.map_eq_some_iff.mp hstep
    cases ha
    exact Or.inl rfl
  | openCursor i text =>
    obtain ⟨a, -, ha⟩ := Option.map_eq_some_iff.mp hstep
    cases ha
    exact Or.inr (Or.inl ⟨_, rfl⟩)
  | copyCursor i =>
    obtain ⟨k, -, hstep⟩ := Option.bind_eq_some_iff.mp hstep
    obtain ⟨c, -, hc⟩ := Option.bind_eq_some_iff.mp hstep
    cases hc
    exact Or.inr (Or.inl ⟨c, rfl⟩)
  | move i move =>
    obtain ⟨k, hk, hstep⟩ := Option.bind_eq_some_iff.mp hstep
    obtain ⟨c, -, hc⟩ := Option.bind_eq_some_iff.mp hstep
    cases hc
    exact Or.inr (Or.inr ⟨i, move, k, _, rfl, hk, rfl⟩)

theorem getElem?_cursors_step (hstep : s.step command = some (s', reply)) {k : Nat} (hk : k < s.cursors.size)
    (hother : ∀ i move, command = .move i move → position? s.cursors.size i ≠ some k) :
    s'.cursors[k]? = s.cursors[k]? := by
  rcases cursors_step hstep with h | ⟨c, h⟩ | ⟨i, move, j, c, hmove, hj, h⟩
  · rw [h]
  · rw [h, Array.getElem?_push, if_neg hk.ne]
  · have hne : j ≠ k := fun heq => hother i move hmove (heq ▸ hj)
    rw [h, Array.getElem?_setIfInBounds, if_neg hne]

theorem eq_of_step_failed {e : BuildError} (hstep : s.step command = some (s', .failed e)) : s' = s := by
  cases command with
  | newBuilder | setLayout layout | setStateLimit limit => cases hstep
  | build patterns =>
    rw [step, Option.some.injEq, build] at hstep
    split at hstep
    · cases hstep
    · cases hstep
      rfl
  | ask i query =>
    obtain ⟨a, -, ha⟩ := Option.map_eq_some_iff.mp hstep
    cases query <;> cases ha
  | openCursor i text =>
    obtain ⟨a, -, ha⟩ := Option.map_eq_some_iff.mp hstep
    cases ha
  | copyCursor i =>
    obtain ⟨k, -, hstep⟩ := Option.bind_eq_some_iff.mp hstep
    obtain ⟨c, -, hc⟩ := Option.bind_eq_some_iff.mp hstep
    cases hc
  | move i move =>
    obtain ⟨k, -, hstep⟩ := Option.bind_eq_some_iff.mp hstep
    obtain ⟨c, -, hc⟩ := Option.bind_eq_some_iff.mp hstep
    cases move <;> cases hc

theorem setIfInBounds_self {α : Type} {xs : Array α} {k : Nat} {x : α} (hx : xs[k]? = some x) :
    xs.setIfInBounds k x = xs := by
  apply Array.ext_getElem?
  intro i
  rw [Array.getElem?_setIfInBounds]
  split_ifs with heq hk
  · rw [← heq, hx]
  · rw [← heq, Array.getElem?_eq_none (Nat.not_lt.mp hk)]
  · rfl

theorem eq_of_step_still {i : Option Nat} {move : Move} (hstill : ∀ c, (move.run c).2 = c)
    (hstep : s.step (.move i move) = some (s', reply)) : s' = s := by
  obtain ⟨k, -, hstep⟩ := Option.bind_eq_some_iff.mp hstep
  obtain ⟨c, hc, hstep⟩ := Option.bind_eq_some_iff.mp hstep
  have hset : s' = { s with cursors := s.cursors.setIfInBounds k (move.run c).2 } := by
    cases hstep
    rfl
  rw [hset, hstill c, setIfInBounds_self hc]

/-! ## Main result -/

/-- **A session answers every command as one of listings does.** A cursor is changed by its own moves only, and by none
that takes nothing, counts or tells the place; and a build that fails changes nothing. -/
theorem answers_like_listings :
    (∀ commands, Option.Rel
      (fun x y => x.1.config = y.1.config ∧ x.1.automata = y.1.automata ∧ List.Forall₂ Fits x.2 y.2)
      (({} : Session).run commands) (({} : ListSession).run commands)) ∧
    (∀ (s : Session) command s' reply, s.step command = some (s', reply) → ∀ k < s.cursors.size,
      (∀ i move, command = .move i move → position? s.cursors.size i ≠ some k) →
        s'.cursors[k]? = s.cursors[k]?) ∧
    (∀ (s : Session) i s' reply, ∀ move ∈ [Move.take 0, .count, .place],
      s.step (.move i move) = some (s', reply) → s' = s) ∧
    ∀ (s : Session) command s' e, s.step command = some (s', .failed e) → s' = s := by
  refine ⟨fun commands => ?_, fun s command s' reply hstep k hk hother => getElem?_cursors_step hstep hk hother,
    fun s i s' reply move hmove hstep => ?_, fun s command s' e hstep => eq_of_step_failed hstep⟩
  · exact rel_mono (follows_start.run commands) fun x y h => ⟨h.1.config_eq, h.1.automata_eq, h.2⟩
  · have hstill : ∀ c, (move.run c).2 = c := by
      simp only [List.mem_cons, List.not_mem_nil, or_false] at hmove
      rcases hmove with rfl | rfl | rfl <;> exact fun c => rfl
    exact eq_of_step_still hstill hstep

/-- Two cursors in a text of two bytes, one copied from the other behind the first match. -/
theorem answers_like_listings_aa :
    Option.Rel (fun x y => x.1.config = y.1.config ∧ x.1.automata = y.1.automata ∧ List.Forall₂ Fits x.2 y.2)
      (({} : Session).run [.build [[97], [97, 97]], .openCursor none #[97, 97], .move none .next,
        .copyCursor none, .move (some 0) .rest, .move (some 0) .next, .move none (.nth 1)])
      (({} : ListSession).run [.build [[97], [97, 97]], .openCursor none #[97, 97], .move none .next,
        .copyCursor none, .move (some 0) .rest, .move (some 0) .next, .move none (.nth 1)]) ∧
    (({} : ListSession).run [.build [[97], [97, 97]], .openCursor none #[97, 97], .move none .next,
        .copyCursor none, .move (some 0) .rest, .move (some 0) .next, .move none (.nth 1)]).map Prod.snd =
      some [some (.built 0 3 2), some (.opened 0), some (.next (some ⟨0, 1, 1⟩)), some (.opened 1),
        some (.found [⟨1, 2, 2⟩, ⟨0, 1, 2⟩]), some (.next none), some (.next (some ⟨0, 1, 2⟩))] ∧
    ∃ s', Session.step { config := { stateLimit := some 1 } } (.build [[97]]) =
        some (s', .failed (.stateLimit 1)) ∧ s' = { config := { stateLimit := some 1 } } :=
  ⟨answers_like_listings.1 _, by decide, _, rfl,
    answers_like_listings.2.2.2 { config := { stateLimit := some 1 } } (.build [[97]]) _ (.stateLimit 1) rfl⟩

end Session

end AhoCorasick
