import AhoCorasick.Proofs.Cursor
import AhoCorasick.Proofs.Refusal
import AhoCorasick.Scan

/-!
# What the scan command prints

The command prints a line for each match of a search, so the lines are those of the occurrences in their order
(`occurrences_pairwise`). A line shows the argument at the position that the match names. Its bytes are those that
stand in the text between the two offsets, and the last space of the line is the one behind them, since there is no
space in an offset (`Scan.beforeLastSpace_line`).
-/

namespace AhoCorasick

/-! ## The bytes of a text -/

theorem toList_loop (bytes : ByteArray) (i : Nat) (read : List UInt8) :
    ByteArray.toList.loop bytes i read = read.reverse ++ bytes.data.toList.drop i := by
  fun_induction ByteArray.toList.loop bytes i read with
  | case1 i read hlt ih =>
    have hlength : i < bytes.data.toList.length := by simpa using hlt
    have hget : bytes.get! i = bytes.data.toList[i] := by
      rw [ByteArray.get!, getElem!_pos bytes.data i hlt, Array.getElem_toList]
    rw [ih, List.drop_eq_getElem_cons hlength, hget, List.reverse_cons, List.append_assoc, List.singleton_append]
  | case2 i read hge =>
    have hlength : bytes.data.toList.length ≤ i := by simpa using hge
    rw [List.drop_eq_nil_of_le hlength, List.append_nil]

theorem Bytes.ofString_eq (s : String) : Bytes.ofString s = s.toByteArray.data.toList := by
  rw [ofString, String.toUTF8_eq_toByteArray, ByteArray.toList, toList_loop]
  rfl

theorem Bytes.ofString_append (s t : String) :
    Bytes.ofString (s ++ t) = Bytes.ofString s ++ Bytes.ofString t := by
  simp only [ofString_eq, String.toByteArray_append, ByteArray.data_append, Array.toList_append]

theorem Bytes.ofString_eq_nil_iff {s : String} : Bytes.ofString s = [] ↔ s = "" := by
  rw [ofString_eq, ← String.toByteArray_inj]
  constructor
  · intro h
    exact ByteArray.ext (Array.toList_inj.mp h)
  · intro h
    rw [h]
    rfl

theorem Bytes.space_not_mem {s : String} (h : ∀ c ∈ s.toList, c.toNat < 128 ∧ c ≠ ' ') :
    32 ∉ Bytes.ofString s := by
  rw [ofString_eq, ← String.ofList_toList (s := s), String.toByteArray_ofList, List.utf8Encode,
    List.toList_data_toByteArray, List.mem_flatMap]
  rintro ⟨c, hc, hmem⟩
  obtain ⟨hascii, hspace⟩ := h c hc
  have hsize : c.utf8Size = 1 := by
    rw [Char.utf8Size_eq_one_iff, UInt32.le_iff_toNat_le]
    exact Nat.le_of_lt_succ hascii
  rw [String.utf8EncodeChar_eq_singleton hsize, List.mem_singleton, ← UInt8.toNat_inj, UInt32.toNat_toUInt8] at hmem
  apply hspace
  apply Char.toNat_inj.mp
  have hvalue : c.val.toNat = c.toNat := rfl
  show c.toNat = 32
  have h32 : (32 : UInt8).toNat = 32 := rfl
  omega

theorem toNat_of_mem_toString {n : Nat} {c : Char} (hc : c ∈ (toString n).toList) : 48 ≤ c.toNat ∧ c.toNat ≤ 57 := by
  rw [Nat.toString_eq_repr, Nat.toList_repr] at hc
  have hdigit : c.isDigit = true := Nat.isDigit_of_mem_toDigits (by decide) (by decide) hc
  simp only [Char.isDigit, Bool.and_eq_true, decide_eq_true_eq, ge_iff_le, UInt32.le_iff_toNat_le] at hdigit
  exact hdigit

/-- The part of a line before its last space. -/
def Bytes.beforeLastSpace (w : Bytes) : Bytes := (w.rdropWhile (· ≠ 32)).dropLast

theorem Bytes.beforeLastSpace_append {u v : Bytes} (h : 32 ∉ v) : Bytes.beforeLastSpace (u ++ 32 :: v) = u := by
  induction v using List.reverseRecOn with
  | nil => simp [beforeLastSpace]
  | append_singleton v b ih =>
    rw [List.mem_append, not_or, List.mem_singleton] at h
    have hb : b ≠ 32 := fun heq => h.2 heq.symm
    rw [← List.cons_append, ← List.append_assoc, beforeLastSpace,
      List.rdropWhile_concat_pos _ _ _ (by simpa using hb)]
    exact ih h.1

/-! ## Lines -/

namespace Scan

variable {arguments : List String} {input : Haystack} {m : Match} {p : String}

/-- The text of a line behind its argument and a space. -/
def offsets (m : Match) : String := toString m.start ++ ":" ++ toString m.stop ++ "\n"

theorem space_not_mem_offsets (m : Match) : 32 ∉ Bytes.ofString (offsets m) := by
  refine Bytes.space_not_mem fun c hc => ?_
  have hvalue : c.toNat < 128 ∧ c.toNat ≠ 32 := by
    simp only [offsets, String.toList_append, List.mem_append] at hc
    rcases hc with ((hc | hc) | hc) | hc
    · have := toNat_of_mem_toString hc
      omega
    · obtain rfl : c = ':' := by simpa using hc
      decide
    · have := toNat_of_mem_toString hc
      omega
    · obtain rfl : c = '\n' := by simpa using hc
      decide
  refine ⟨hvalue.1, ?_⟩
  rintro rfl
  exact hvalue.2 rfl

theorem line_eq (hp : arguments[m.pattern]? = some p) : line arguments.toArray m = p ++ " " ++ offsets m := by
  rw [line, Array.getD_eq_getD_getElem?, List.getElem?_toArray, hp, Option.getD_some, offsets]
  simp only [String.append_assoc]

theorem beforeLastSpace_line (hp : arguments[m.pattern]? = some p) :
    (Bytes.ofString (line arguments.toArray m)).beforeLastSpace = Bytes.ofString p := by
  have hspace : Bytes.ofString " " = [32] := by rw [Bytes.ofString_eq]; rfl
  rw [line_eq hp, Bytes.ofString_append, Bytes.ofString_append, hspace, List.append_assoc, List.singleton_append,
    Bytes.beforeLastSpace_append (space_not_mem_offsets m)]

theorem mem_occurrences_iff : m ∈ occurrences (arguments.map Bytes.ofString) input.toList ↔
    ∃ p, arguments[m.pattern]? = some p ∧ p ≠ "" ∧ m.length = (Bytes.ofString p).length ∧ m.length ≤ m.stop ∧
      m.stop ≤ input.size ∧ (input.extract m.start m.stop).toList = Bytes.ofString p := by
  have hslice : (input.extract m.start m.stop).toList = (input.toList.take m.stop).drop (m.stop - m.length) := by
    rw [Array.toList_extract, List.extract_eq_take_drop, List.drop_take, Match.start]
  rw [mem_occurrences, List.getElem?_map, Option.map_eq_some_iff, hslice, Array.length_toList]
  constructor
  · rintro ⟨hpos, hle, hstop, p, hp, hbytes⟩
    have hlength : m.length = (Bytes.ofString p).length := by
      rw [hbytes, List.length_drop, List.length_take, Array.length_toList]
      omega
    refine ⟨p, hp, ?_, hlength, hle, hstop, hbytes.symm⟩
    rintro rfl
    rw [Bytes.ofString_eq_nil_iff.mpr rfl, List.length_nil] at hlength
    omega
  · rintro ⟨p, hp, hne, hlength, hle, hstop, hbytes⟩
    have hpos : 0 < (Bytes.ofString p).length := List.length_pos_iff.mpr fun h => hne (Bytes.ofString_eq_nil_iff.mp h)
    exact ⟨by omega, hle, hstop, p, hp, hbytes.symm⟩

/-! ## Main result -/

/-- **The command prints each occurrence of each argument.** It exits with code 0 and prints one line for each place
where the bytes of an argument that is not empty stand in the input, by ascending end, then the longest first, then in
the order of the arguments. The bytes of a line before its last space are those of the input between the offsets. Only
if the arguments have more distinct prefixes than there are ids for states, it breaks off. -/
theorem run_prints_occurrences (harguments : arguments ≠ []) (input : Haystack) :
    ((prefixes (arguments.map Bytes.ofString)).length ≤ stateIdCount → ∃ ms : List Match,
      run arguments input = ⟨0, String.join (ms.map (line arguments.toArray))⟩ ∧
      (∀ m, m ∈ ms ↔ ∃ p, arguments[m.pattern]? = some p ∧ p ≠ "" ∧ m.length = (Bytes.ofString p).length ∧
        m.length ≤ m.stop ∧ m.stop ≤ input.size ∧ (input.extract m.start m.stop).toList = Bytes.ofString p) ∧
      ms.Pairwise Match.Before ∧
      ∀ m ∈ ms, ∃ p, arguments[m.pattern]? = some p ∧
        line arguments.toArray m = p ++ " " ++ toString m.start ++ ":" ++ toString m.stop ++ "\n" ∧
        (Bytes.ofString (line arguments.toArray m)).beforeLastSpace = (input.extract m.start m.stop).toList) ∧
    (stateIdCount < (prefixes (arguments.map Bytes.ofString)).length → run arguments input = ⟨101, ""⟩) := by
  have hrun : run arguments input = report arguments input := by
    rw [run, if_neg (by simpa using harguments)]
  rw [hrun, report]
  constructor
  · intro hids
    obtain ⟨a, hbuild⟩ := Builder.build_default_iff.mpr hids
    refine ⟨occurrences (arguments.map Bytes.ofString) input.toList, ?_, fun m => mem_occurrences_iff,
      occurrences_pairwise _ _, fun m hm => ?_⟩
    · rw [hbuild, ← (Automaton.recognizes_of_build hbuild).search_eq]
    · obtain ⟨p, hp, -, -, -, -, hbytes⟩ := mem_occurrences_iff.mp hm
      refine ⟨p, hp, ?_, (beforeLastSpace_line hp).trans hbytes.symm⟩
      rw [line_eq hp, offsets]
      simp only [String.append_assoc]
  · intro hmany
    cases hbuild : Builder.build {} (arguments.map Bytes.ofString) with
    | error e => rfl
    | ok a => exact absurd (Builder.build_default_iff.mp ⟨a, hbuild⟩) (by omega)

/-- A repeated argument has a line of its own, and an empty one has none. -/
theorem run_prints_occurrences_she :
    (prefixes (["he", "she", "", "he"].map Bytes.ofString)).length ≤ stateIdCount ∧ ∃ ms : List Match,
      run ["he", "she", "", "he"] #[117, 115, 104, 101] =
        ⟨0, String.join (ms.map (line ["he", "she", "", "he"].toArray))⟩ ∧
      ⟨1, 3, 4⟩ ∈ ms ∧ ⟨0, 2, 4⟩ ∈ ms ∧ ⟨3, 2, 4⟩ ∈ ms ∧ ⟨2, 0, 4⟩ ∉ ms ∧ ms.Pairwise Match.Before := by
  have hhe : Bytes.ofString "he" = [104, 101] := by rw [Bytes.ofString_eq]; rfl
  have hshe : Bytes.ofString "she" = [115, 104, 101] := by rw [Bytes.ofString_eq]; rfl
  have hids : (prefixes (["he", "she", "", "he"].map Bytes.ofString)).length ≤ stateIdCount := by
    rw [List.map_cons, List.map_cons, List.map_cons, List.map_cons, hhe, hshe, Bytes.ofString_eq_nil_iff.mpr rfl]
    decide
  obtain ⟨ms, hrun, hmem, hordered, -⟩ :=
    (run_prints_occurrences (List.cons_ne_nil "he" _) #[117, 115, 104, 101]).1 hids
  refine ⟨hids, ms, hrun, ?_, ?_, ?_, ?_, hordered⟩
  · exact (hmem _).mpr ⟨"she", rfl, by decide, by rw [hshe]; rfl, by decide, by decide, by rw [hshe]; rfl⟩
  · exact (hmem _).mpr ⟨"he", rfl, by decide, by rw [hhe]; rfl, by decide, by decide, by rw [hhe]; rfl⟩
  · exact (hmem _).mpr ⟨"he", rfl, by decide, by rw [hhe]; rfl, by decide, by decide, by rw [hhe]; rfl⟩
  · rintro hmatch
    obtain ⟨p, hp, hne, -⟩ := (hmem _).mp hmatch
    exact hne (Option.some.inj hp).symm

end Scan

end AhoCorasick
