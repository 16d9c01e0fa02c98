import AhoCorasick.Proofs.Footprint
import AhoCorasick.Proofs.Limits
import AhoCorasick.Proofs.Literals
import AhoCorasick.Text.Inspection

/-!
# The text of an automaton tells what it was built from

The literal of a built automaton is plain, so its text tells the literal, and the literal tells the automaton field
by field (`Automaton.eq_of_literal`). The automaton in turn tells its patterns, though it keeps none of them: a
pattern is the path to the state that records it (`Trie.Holds.getElem?_patterns_iff`). The other way round, a build
depends on nothing but the layout and the patterns (`Builder.eq_iff_of_build`).
-/

namespace AhoCorasick

namespace Literal

variable {name : String}

theorem plain_option (o : Option Nat) : (option o).Plain := by
  cases o with
  | none => exact .word (by decide)
  | some n =>
    refine .tuple (Or.inr (by decide)) fun l hl => ?_
    obtain rfl := List.mem_singleton.mp hl
    exact .number n

theorem option_injective {o o' : Option Nat} (h : option o = option o') : o = o' := by
  cases o <;> cases o' <;> simp_all [option]

theorem map_number_injective {xs ys : List Nat} (h : xs.map number = ys.map number) : xs = ys :=
  List.map_injective_iff.mpr (fun _ _ heq => Literal.number.inj heq) h

theorem plain_record {fields : List (String × Literal)} (hname : isName name = true)
    (h : ∀ f ∈ fields, isName f.1 = true ∧ f.2.Plain) : (record name fields).Plain :=
  .record hname (fun f hf => (h f hf).1) fun f hf => (h f hf).2

theorem plain_field {value : Literal} (hname : isName name = true) (hvalue : value.Plain) :
    isName (name, value).1 = true ∧ (name, value).2.Plain := ⟨hname, hvalue⟩

theorem plain_map {α : Type} {f : α → Literal} {xs : List α} (h : ∀ x ∈ xs, (f x).Plain) :
    (list (xs.map f)).Plain := by
  refine .list fun l hl => ?_
  obtain ⟨x, hx, rfl⟩ := List.mem_map.mp hl
  exact h x hx

end Literal

open Literal

/-! ## Literals are plain -/

theorem Pattern.plain_literal (p : Pattern) : p.literal.Plain := by
  refine plain_record (by decide) fun f hf => ?_
  simp only [List.mem_cons, List.not_mem_nil, or_false] at hf
  rcases hf with rfl | rfl <;> exact plain_field (by decide) (.number _)

theorem Transitions.plain_literal (t : Transitions) : t.literal.Plain := by
  cases t with
  | sparse entries =>
    refine .tuple (Or.inr (by decide)) fun l hl => ?_
    obtain rfl := List.mem_singleton.mp hl
    refine plain_map fun e _ => .tuple (Or.inl rfl) fun l hl => ?_
    simp only [List.mem_cons, List.not_mem_nil, or_false] at hl
    rcases hl with rfl | rfl <;> exact .number _
  | dense slots =>
    refine .tuple (Or.inr (by decide)) fun l hl => ?_
    obtain rfl := List.mem_singleton.mp hl
    exact plain_map fun s _ => .number s

theorem Node.plain_literal (node : Node) (link : Link) : (node.literal link).Plain := by
  refine plain_record (by decide) fun f hf => ?_
  simp only [List.mem_cons, List.not_mem_nil, or_false] at hf
  rcases hf with rfl | rfl | rfl | rfl | rfl
  · exact plain_field (by decide) node.transitions.plain_literal
  · exact plain_field (by decide) (.number _)
  · exact plain_field (by decide) (plain_option _)
  · exact plain_field (by decide) (plain_map fun p _ => p.plain_literal)
  · exact plain_field (by decide) (.number _)

theorem Automaton.plain_literal (a : Automaton) : a.literal.Plain := by
  refine plain_record (by decide) fun f hf => ?_
  simp only [List.mem_cons, List.not_mem_nil, or_false] at hf
  rcases hf with rfl | rfl
  · refine plain_field (by decide) ?_
    rw [← List.map_uncurry_zip_eq_zipWith]
    exact plain_map fun x _ => x.1.plain_literal x.2
  · exact plain_field (by decide) (plain_map fun n _ => .number n)

/-! ## Literals tell their values -/

theorem Pattern.eq_of_literal {p p' : Pattern} (h : p.literal = p'.literal) : p = p' := by
  cases p
  cases p'
  simpa [Pattern.literal] using h

theorem Transitions.eq_of_literal {t t' : Transitions} (h : t.literal = t'.literal) : t = t' := by
  cases t with
  | sparse entries =>
    cases t' with
    | sparse entries' =>
      simp only [Transitions.literal, Literal.tuple.injEq, List.cons.injEq, Literal.list.injEq, true_and, and_true] at h
      have hentries : entries.toList = entries'.toList := by
        refine List.map_injective_iff.mpr (fun e e' heq => ?_) h
        simp only [Literal.tuple.injEq, List.cons.injEq, Literal.number.injEq, true_and, and_true] at heq
        exact Prod.ext (UInt8.toNat_inj.mp heq.1) heq.2
      rw [Array.toList_inj.mp hentries]
    | dense slots => simp [Transitions.literal] at h
  | dense slots =>
    cases t' with
    | sparse entries => simp [Transitions.literal] at h
    | dense slots' =>
      simp only [Transitions.literal, Literal.tuple.injEq, List.cons.injEq, Literal.list.injEq, true_and, and_true] at h
      rw [Vector.toList_inj.mp (map_number_injective h)]

theorem Node.eq_of_literal {node node' : Node} {link link' : Link} (h : node.literal link = node'.literal link') :
    node = node' ∧ link = link' := by
  obtain ⟨transitions, endings, depth⟩ := node
  obtain ⟨transitions', endings', depth'⟩ := node'
  obtain ⟨fail, output⟩ := link
  obtain ⟨fail', output'⟩ := link'
  simp only [Node.literal, Literal.record.injEq, List.cons.injEq, Prod.mk.injEq, true_and, and_true,
    Literal.number.injEq, Literal.list.injEq] at h
  obtain ⟨htransitions, rfl, houtput, hendings, rfl⟩ := h
  obtain rfl := Transitions.eq_of_literal htransitions
  obtain rfl := option_injective houtput
  have hlist : endings.toList = endings'.toList :=
    List.map_injective_iff.mpr (fun _ _ => Pattern.eq_of_literal) hendings
  obtain rfl := Array.toList_inj.mp hlist
  exact ⟨rfl, rfl⟩

/-- As many links as states are told along with them. -/
theorem Automaton.eq_of_literal {a a' : Automaton} (hsize : a.links.size = a.size) (hsize' : a'.links.size = a'.size)
    (h : a.literal = a'.literal) : a = a' := by
  obtain ⟨⟨nodes, lengths⟩, links⟩ := a
  obtain ⟨⟨nodes', lengths'⟩, links'⟩ := a'
  have hlength : nodes.toList.length = links.toList.length := hsize.symm
  have hlength' : nodes'.toList.length = links'.toList.length := hsize'.symm
  simp only [Automaton.literal, Literal.record.injEq, List.cons.injEq, Prod.mk.injEq, true_and, and_true,
    Literal.list.injEq, ← List.map_uncurry_zip_eq_zipWith] at h
  obtain ⟨hstates, hlengths⟩ := h
  have hzip : nodes.toList.zip links.toList = nodes'.toList.zip links'.toList := by
    refine List.map_injective_iff.mpr (fun x y hxy => ?_) hstates
    obtain ⟨hnode, hlink⟩ := Node.eq_of_literal hxy
    exact Prod.ext hnode hlink
  have hnodes : nodes.toList = nodes'.toList := by
    calc nodes.toList = (nodes.toList.zip links.toList).map Prod.fst := (List.map_fst_zip hlength.le).symm
      _ = nodes'.toList := by rw [hzip, List.map_fst_zip hlength'.le]
  have hlinks : links.toList = links'.toList := by
    calc links.toList = (nodes.toList.zip links.toList).map Prod.snd := (List.map_snd_zip hlength.ge).symm
      _ = links'.toList := by rw [hzip, List.map_snd_zip hlength'.ge]
  rw [Array.toList_inj.mp hnodes, Array.toList_inj.mp hlinks, Array.toList_inj.mp (map_number_injective hlengths)]

/-! ## The automaton tells its patterns -/

theorem Trie.Holds.getElem?_patterns_iff {t : Trie} {labels patterns : List Bytes} {i : Nat} {w : Bytes}
    (h : t.Holds labels patterns) :
    patterns[i]? = some w ↔ ∃ s, t.find? w = some s ∧ ⟨i, w.length⟩ ∈ t.endings s := by
  have hrecorded : ∀ {s}, labels[s]? = some w → (⟨i, w.length⟩ ∈ t.endings s ↔ patterns[i]? = some w) := by
    intro s hs
    rw [← Array.mem_toList_iff, h.endings_eq hs, List.mem_map, ← mem_idsOf]
    constructor
    · rintro ⟨j, hj, heq⟩
      obtain rfl := (Pattern.mk.inj heq).1
      exact hj
    · intro hi
      exact ⟨i, hi, rfl⟩
  constructor
  · intro hi
    obtain ⟨s, hs⟩ := List.mem_iff_getElem?.mp (h.pattern_mem w (List.mem_of_getElem? hi))
    exact ⟨s, h.find?_eq_some_iff.mpr hs, (hrecorded hs).mpr hi⟩
  · rintro ⟨s, hs, hmem⟩
    exact (hrecorded (h.find?_eq_some_iff.mp hs)).mp hmem

namespace Builder

variable {config config' : Builder} {patterns patterns' : List Bytes} {a a' : Automaton}

theorem build_unlimited (h : config.build patterns = .ok a) : build ⟨config.layout, none⟩ patterns = .ok a := by
  obtain ⟨layout, limit⟩ := config
  cases limit with
  | none => exact h
  | some limit => exact build_widens (widens_unlimited layout limit) h

theorem eq_iff_of_build (h : config.build patterns = .ok a) (h' : config'.build patterns' = .ok a') :
    a = a' ↔ config.layout = config'.layout ∧ patterns = patterns' := by
  constructor
  · rintro rfl
    have ha := (Automaton.recognizes_of_build h).holds
    have ha' := (Automaton.recognizes_of_build h').holds
    obtain ⟨node, hroot⟩ := ha.getElem?_nodes ha.root_label
    refine ⟨?_, List.ext_getElem? fun i => Option.ext fun w => ?_⟩
    · rw [← Automaton.uniform_of_build h root node hroot, Automaton.uniform_of_build h' root node hroot]
    · rw [ha.getElem?_patterns_iff, ha'.getElem?_patterns_iff]
  · rintro ⟨hlayout, rfl⟩
    have hsame := build_unlimited h
    rw [hlayout, build_unlimited h', Except.ok.injEq] at hsame
    exact hsame.symm

/-! ## Main result -/

/-- **The text tells the patterns.** Two builds that succeed end with the same text, and with the same automaton,
exactly if the layouts are the same and the patterns are, in the same order. -/
theorem text_tells_patterns (h : config.build patterns = .ok a) (h' : config'.build patterns' = .ok a') :
    (String.ofList a.literal.render = String.ofList a'.literal.render ↔
      config.layout = config'.layout ∧ patterns = patterns') ∧
    (a = a' ↔ config.layout = config'.layout ∧ patterns = patterns') := by
  have heq := eq_iff_of_build h h'
  refine ⟨?_, heq⟩
  rw [← heq, String.ofList_inj]
  constructor
  · intro htext
    have hliteral := a.plain_literal.eq_of_render a'.plain_literal htext
    exact Automaton.eq_of_literal (Automaton.size_links_of_build h) (Automaton.size_links_of_build h') hliteral
  · rintro rfl
    rfl

/-- Where the pattern "b" stands in the list is told, and so is the empty pattern. -/
theorem text_tells_patterns_ab :
    ∃ a a', ({} : Builder).build [[97, 98], [98]] = .ok a ∧
      build ⟨.sparse, some 4⟩ [[98], [97, 98], []] = .ok a' ∧
      ¬String.ofList a.literal.render = String.ofList a'.literal.render ∧ a ≠ a' := by
  obtain ⟨htext, hsame⟩ := text_tells_patterns
    (show ({} : Builder).build [[97, 98], [98]] = .ok _ from rfl)
    (show build ⟨.sparse, some 4⟩ [[98], [97, 98], []] = .ok _ from rfl)
  have hne : ¬(({} : Builder).layout = .sparse ∧ ([[97, 98], [98]] : List Bytes) = [[98], [97, 98], []]) := by decide
  exact ⟨_, _, rfl, rfl, fun h => hne (htext.mp h), fun h => hne (hsame.mp h)⟩

end Builder

end AhoCorasick
