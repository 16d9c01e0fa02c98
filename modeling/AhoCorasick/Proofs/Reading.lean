import AhoCorasick.Proofs.Trie

/-!
# Reading byte by byte makes the trie

At every moment of reading, the trie is the one of the patterns that have been read, with the path of the bytes
that have been read of the next one (`Reading.Sound`). So the trie holds the prefixes read so far
(`Trie.holds_path`), and the rounds end with the answer of `Trie.ofPatterns` (`Reading.stops_start`).
-/

namespace AhoCorasick

namespace Trie

variable {config : Builder} {t t' : Trie} {s : StateId} {b : UInt8} {e : BuildError} {depth : Nat}

theorem addNode_eq_ok : t.addNode config depth = .ok t' ↔ config.permit t.size = .ok () ∧
    { t with nodes := t.nodes.push ⟨.empty config.layout, #[], depth⟩ } = t' := by
  rw [addNode, bind_eq_ok]
  simp only [pure, Except.pure, Except.ok.injEq]
  constructor
  · rintro ⟨_, h⟩
    exact h
  · intro h
    exact ⟨(), h⟩

theorem size_addNode (h : t.addNode config depth = .ok t') : t'.size = t.size + 1 := by
  obtain ⟨-, rfl⟩ := addNode_eq_ok.mp h
  exact Array.size_push _

@[simp] theorem size_setChild (t : Trie) (s : StateId) (b : UInt8) (c : StateId) :
    (t.setChild s b c).size = t.size := Array.size_modify

@[simp] theorem size_record (t : Trie) (s : StateId) (length : Nat) : (t.record s length).size = t.size :=
  Array.size_modify

theorem step_of_addNode (hchild : t.child? s b = none) :
    t.step config s b = (t.addNode config (t.depth s + 1)).map fun t' => (t'.setChild s b t.size, t.size) := by
  simp only [step, hchild]
  cases t.addNode config (t.depth s + 1) <;> rfl

theorem ofPatterns_append (config : Builder) (patterns more : List Bytes) :
    ofPatterns config (patterns ++ more) =
      ofPatterns config patterns >>= fun t => more.foldlM (insert config) t := by
  simp only [ofPatterns, List.foldlM_append, bind_assoc]

theorem holds_path {t₀ : Trie} {done : List Bytes} {w : Bytes} (hdone : ofPatterns config done = .ok t₀)
    (hpath : t₀.path config w = .ok (t, s)) :
    t.Holds (prefixesRead done ++ prefixesOf w).eraseDups done ∧
      (prefixesRead done ++ prefixesOf w).eraseDups[s]? = some w :=
  (holds_ofPatterns hdone).path List.mem_cons_self hpath

theorem path_append (config : Builder) (t : Trie) (w rest : Bytes) :
    t.path config (w ++ rest) =
      t.path config w >>= fun q => rest.foldlM (fun (t, s) b => t.step config s b) q := by
  simp only [path, List.foldlM_append]

end Trie

namespace Reading

variable {config : Builder} {patterns : List Bytes} {r r' : Reading} {x : Except BuildError Trie}

/-! ## What a round does -/

/-- One round that is not the last one. -/
inductive Step (config : Builder) : Reading → Reading → Prop where
  | makeRoot {t t' : Trie} {waiting : List Bytes} : t.addNode config 0 = .ok t' →
      Step config ⟨t, waiting, .makeRoot⟩ ⟨t', waiting, .turn⟩
  | turn {t : Trie} {w : Bytes} {waiting : List Bytes} :
      Step config ⟨t, w :: waiting, .turn⟩ ⟨t, waiting, .follow root w w.length⟩
  | record {t : Trie} {waiting : List Bytes} {s : StateId} {length : Nat} :
      Step config ⟨t, waiting, .follow s [] length⟩ ⟨t.record s length, waiting, .turn⟩
  | move {t : Trie} {waiting : List Bytes} {s c : StateId} {b : UInt8} {rest : Bytes} {length : Nat} :
      t.child? s b = some c →
      Step config ⟨t, waiting, .follow s (b :: rest) length⟩ ⟨t, waiting, .follow c rest length⟩
  | make {t t' : Trie} {waiting : List Bytes} {s : StateId} {b : UInt8} {rest : Bytes} {length : Nat} :
      t.child? s b = none → t.addNode config (t.depth s + 1) = .ok t' →
      Step config ⟨t, waiting, .follow s (b :: rest) length⟩ ⟨t', waiting, .connect s b t.size rest length⟩
  | connect {t : Trie} {waiting : List Bytes} {s c : StateId} {b : UInt8} {rest : Bytes} {length : Nat} :
      Step config ⟨t, waiting, .connect s b c rest length⟩ ⟨t.setChild s b c, waiting, .follow c rest length⟩

theorem step_of_round (hround : r.round config = .again r') : Step config r r' := by
  obtain ⟨t, waiting, task⟩ := r
  cases task with
  | makeRoot =>
    cases hnode : t.addNode config 0 with
    | error e => simp [round, hnode] at hround
    | ok t' =>
      simp only [round, hnode, Round.again.injEq] at hround
      exact hround ▸ .makeRoot hnode
  | turn =>
    cases waiting with
    | nil => simp [round] at hround
    | cons w waiting =>
      simp only [round, Round.again.injEq] at hround
      exact hround ▸ .turn
  | follow s rest length =>
    cases rest with
    | nil =>
      simp only [round, Round.again.injEq] at hround
      exact hround ▸ .record
    | cons b rest =>
      cases hchild : t.child? s b with
      | some c =>
        simp only [round, hchild, Round.again.injEq] at hround
        exact hround ▸ .move hchild
      | none =>
        cases hnode : t.addNode config (t.depth s + 1) with
        | error e => simp [round, hchild, hnode] at hround
        | ok t' =>
          simp only [round, hchild, hnode, Round.again.injEq] at hround
          exact hround ▸ .make hchild hnode
  | connect s b c rest length =>
    simp only [round, Round.again.injEq] at hround
    exact hround ▸ .connect

theorem trie_of_round_done {r : Reading} (hround : r.round config = .done (.ok t)) : r.trie = t := by
  obtain ⟨t, waiting, task⟩ := r
  cases task with
  | makeRoot => cases hnode : t.addNode config 0 <;> simp [round, hnode] at hround
  | turn =>
    cases waiting with
    | nil => simpa [round] using hround
    | cons w waiting => simp [round] at hround
  | follow s rest length =>
    cases rest with
    | nil => simp [round] at hround
    | cons b rest =>
      cases hchild : t.child? s b with
      | some c => simp [round, hchild] at hround
      | none => cases hnode : t.addNode config (t.depth s + 1) <;> simp [round, hchild, hnode] at hround
  | connect s b c rest length => simp [round] at hround

/-! ## What has been made -/

/-- What has been made at a moment: the trie of the patterns `done`, and the path of the bytes `w` that have
been read of the next pattern. -/
inductive Sound (config : Builder) (patterns : List Bytes) : Reading → Prop where
  | makeRoot : Sound config patterns ⟨.empty, patterns, .makeRoot⟩
  | turn {t : Trie} {done waiting : List Bytes} : done ++ waiting = patterns →
      Trie.ofPatterns config done = .ok t → Sound config patterns ⟨t, waiting, .turn⟩
  | follow {t₀ t : Trie} {done waiting : List Bytes} {w rest : Bytes} {s : StateId} {length : Nat} :
      done ++ (w ++ rest) :: waiting = patterns → length = (w ++ rest).length →
      Trie.ofPatterns config done = .ok t₀ → t₀.path config w = .ok (t, s) →
      Sound config patterns ⟨t, waiting, .follow s rest length⟩
  | connect {t₀ t t' : Trie} {done waiting : List Bytes} {w rest : Bytes} {s : StateId} {b : UInt8}
      {length : Nat} :
      done ++ (w ++ b :: rest) :: waiting = patterns → length = (w ++ b :: rest).length →
      Trie.ofPatterns config done = .ok t₀ → t₀.path config w = .ok (t, s) → t.child? s b = none →
      t.addNode config (t.depth s + 1) = .ok t' →
      Sound config patterns ⟨t', waiting, .connect s b t.size rest length⟩

theorem Sound.follow_concat {t₀ t t' : Trie} {done waiting : List Bytes} {w rest : Bytes} {s c : StateId}
    {b : UInt8} {length : Nat} (hpatterns : done ++ (w ++ b :: rest) :: waiting = patterns)
    (hlength : length = (w ++ b :: rest).length) (hdone : Trie.ofPatterns config done = .ok t₀)
    (hpath : t₀.path config w = .ok (t, s)) (hstep : t.step config s b = .ok (t', c)) :
    Sound config patterns ⟨t', waiting, .follow c rest length⟩ := by
  have hmore : w ++ b :: rest = w ++ [b] ++ rest := by simp
  exact .follow (hmore ▸ hpatterns) (hmore ▸ hlength) hdone
    (Trie.path_concat_eq_ok.mpr ⟨(t, s), hpath, hstep⟩)

theorem Sound.step (h : Sound config patterns r) (hstep : Step config r r') : Sound config patterns r' := by
  cases hstep with
  | makeRoot hnode =>
    cases h with
    | makeRoot =>
      refine .turn (List.nil_append _) ?_
      rw [Trie.ofPatterns, hnode]
      rfl
  | turn =>
    cases h with
    | turn hpatterns hdone => exact .follow (w := []) hpatterns rfl hdone rfl
  | @record t waiting s length =>
    cases h with
    | @follow t₀ _ done _ w _ _ _ hpatterns hlength hdone hpath =>
      rw [List.append_nil] at hpatterns hlength
      have hsplit : (done ++ [w]) ++ waiting = patterns := by simpa using hpatterns
      refine .turn hsplit ?_
      rw [Trie.ofPatterns_concat, bind_eq_ok]
      exact ⟨t₀, hdone, Trie.insert_eq_ok.mpr ⟨_, hpath, by rw [hlength]⟩⟩
  | move hchild =>
    cases h with
    | follow hpatterns hlength hdone hpath =>
      exact .follow_concat hpatterns hlength hdone hpath (Trie.step_of_some config hchild)
  | make hchild hnode =>
    cases h with
    | follow hpatterns hlength hdone hpath => exact .connect hpatterns hlength hdone hpath hchild hnode
  | connect =>
    cases h with
    | connect hpatterns hlength hdone hpath hchild hnode =>
      refine .follow_concat hpatterns hlength hdone hpath ?_
      rw [Trie.step_of_addNode hchild, hnode]
      rfl

theorem sound_of_reaches (h : Round.Reaches (round config) (start patterns) r) : Sound config patterns r :=
  h.keeps (fun _ _ hr hround => hr.step (step_of_round hround)) .makeRoot

theorem Sound.answer (h : Sound config patterns r) (hround : r.round config = .done x) :
    Trie.ofPatterns config patterns = x := by
  cases h with
  | makeRoot =>
    cases hroot : Trie.empty.addNode config 0 with
    | ok t => simp [round, hroot] at hround
    | error e =>
      simp only [round, hroot, Round.done.injEq] at hround
      rw [← hround, Trie.ofPatterns, hroot]
      rfl
  | @turn t done waiting hpatterns hdone =>
    cases waiting with
    | cons w waiting => simp [round] at hround
    | nil =>
      simp only [round, Round.done.injEq] at hround
      rw [← hround, ← hpatterns, List.append_nil, hdone]
  | @follow t₀ t done waiting w rest s length hpatterns hlength hdone hpath =>
    cases rest with
    | nil => simp [round] at hround
    | cons b rest =>
      cases hchild : t.child? s b with
      | some c => simp [round, hchild] at hround
      | none =>
        cases hnode : t.addNode config (t.depth s + 1) with
        | ok t' => simp [round, hchild, hnode] at hround
        | error e =>
          simp only [round, hchild, hnode, Round.done.injEq] at hround
          have hstep : t.step config s b = .error e := by rw [Trie.step_of_addNode hchild, hnode]; rfl
          have hrest : t₀.path config (w ++ b :: rest) = .error e := by
            rw [Trie.path_append, hpath]
            simp [bind, Except.bind, hstep]
          rw [← hround, ← hpatterns, Trie.ofPatterns_append, hdone]
          simp [bind, Except.bind, Trie.insert, hrest]
  | connect => simp [round] at hround

/-! ## The rounds end -/

/-- A number of rounds after which reading has ended: two for each byte that is left and for each pattern. -/
def roundsLeft (r : Reading) : Nat :=
  let waiting := (r.waiting.map fun w => 2 * w.length + 2).sum
  match r.task with
  | .makeRoot => waiting + 2
  | .turn => waiting + 1
  | .follow _ rest _ => waiting + 2 * rest.length + 2
  | .connect _ _ _ rest _ => waiting + 2 * rest.length + 3

theorem Step.roundsLeft_lt (h : Step config r r') : r'.roundsLeft < r.roundsLeft := by
  cases h <;> simp [roundsLeft] <;> omega

theorem stops_start (config : Builder) (patterns : List Bytes) :
    ∃ n, Round.Stops (round config) n (start patterns) (Trie.ofPatterns config patterns) := by
  have hless : ∀ r r', round config r = .again r' → r'.roundsLeft < r.roundsLeft :=
    fun _ _ hround => (step_of_round hround).roundsLeft_lt
  obtain ⟨n, x, hstops⟩ := Round.exists_stops roundsLeft hless (start patterns)
  obtain ⟨r, hreaches, hdone⟩ := hstops.exists_last
  rw [(sound_of_reaches hreaches).answer hdone]
  exact ⟨n, hstops⟩

end Reading

end AhoCorasick
