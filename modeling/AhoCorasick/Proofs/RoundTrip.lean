import AhoCorasick.Proofs.Cursor
import AhoCorasick.Proofs.Shapes
import AhoCorasick.Proofs.Written

/-!
# Matches through JSON

The text of a match is read as an object of its three fields, by name and so in another order than they were written
in, and it gives the match back if its values are sizes and it is not too long (`Sound.ofJson_read?`). Every match
that has been read is one of these (`sound_of_ofJson`). So is every match that a search finds, since it lies in the
text that was searched (`Recognizes.mem_search`).
-/

namespace AhoCorasick

namespace Match

variable {m : Match} {fields : List (String × Json)} {items : List Json} {v : Json}

/-- The values of a match are sizes, and it is not longer than the text before its end. -/
structure Sound (m : Match) : Prop where
  get_lt : ∀ field, m.get field < wordCount
  length_le : m.length ≤ m.stop

theorem Sound.start_add_length (h : m.Sound) : m.start + m.length = m.stop :=
  Nat.sub_add_cancel h.length_le

/-! ## The text of a match -/

theorem json_eq (m : Match) : m.json =
    ("\x7b\"pattern\":" ++ toString m.pattern ++ ",\"len\":" ++ toString m.length ++ ",\"end\":" ++
      toString m.stop ++ "\x7d").toList := by
  simp [json, fields, Field.name, Json.natural, Json.write, Json.writeFields, Json.bracketed, Json.writeString,
    Json.writeChar, Json.writeInt, Json.writeNat, String.toList_append]

theorem whole_natural {n : Nat} (hn : n < wordCount) : Json.Whole (.natural n) := by
  have hmax : (n : Int) < wordCount := Int.ofNat_lt.mpr hn
  exact ⟨by omega, hmax⟩

theorem Sound.read?_json (h : m.Sound) : Json.read? m.json = some (.ofFields m.fields) :=
  Json.read?_write (v := .object m.fields) ⟨whole_natural (h.get_lt .pattern), whole_natural (h.get_lt .length),
    whole_natural (h.get_lt .stop), trivial⟩

theorem sorted_fields (m : Match) : Json.sorted m.fields =
    [(Field.stop.name, .natural m.stop), (Field.length.name, .natural m.length),
      (Field.pattern.name, .natural m.pattern)] := by
  have hlength : Field.length.name < Field.pattern.name := by decide
  have hstop : Field.stop.name < Field.length.name := by decide
  rw [Match.fields, Json.sorted, List.foldl_cons, List.foldl_cons, List.foldl_cons, List.foldl_nil, Json.insertField,
    Json.insertField, if_pos hlength, Json.insertField, if_pos hstop]

/-! ## Reading a match back -/

theorem Sound.given_fields (h : m.Sound) : Given m.fields m := by
  intro field
  refine ⟨?_, h.get_lt field⟩
  cases field <;> rfl

theorem Sound.given_sorted (h : m.Sound) : Given (Json.sorted m.fields) m := by
  intro field
  refine ⟨?_, h.get_lt field⟩
  rw [sorted_fields]
  cases field <;> rfl

theorem Sound.ofFields_of_given (h : m.Sound) (hgiven : Given fields m) : ofFields fields = .ok m := by
  rw [hgiven.ofFields_eq, check_eq_ok_iff]
  exact ⟨h.length_le, rfl⟩

theorem Sound.ofJson_read? (h : m.Sound) : (Json.read? m.json).map ofJson = some (.ok m) := by
  rw [h.read?_json, Option.map_some]
  exact congrArg some (h.ofFields_of_given h.given_sorted)

theorem Sound.ofJson_array (h : m.Sound) :
    ofJson (.array [.natural m.pattern, .natural m.length, .natural m.stop]) = .ok m :=
  (ofItems_eq_ofFields _ _ _).trans (h.ofFields_of_given h.given_fields)

/-! ## What has been read -/

theorem sound_of_ofFields (h : ofFields fields = .ok m) : m.Sound := by
  rcases ofFields_cases fields with ⟨_, _, _, _, -, -, -, herror⟩ | ⟨-, _, -, herror⟩ | ⟨m', hgiven, hcheck⟩
  · cases herror.symm.trans h
  · cases herror.symm.trans h
  · obtain ⟨hle, rfl⟩ := check_eq_ok_iff.mp (hcheck.symm.trans h)
    exact ⟨fun field => (hgiven field).2, hle⟩

theorem lt_of_readItem {i n : Nat} (h : readItem items i = .ok n) : i < items.length := by
  by_contra hshort
  rw [readItem, List.getElem?_eq_none (Nat.not_lt.mp hshort)] at h
  cases h

theorem eq_of_ofItems (h : ofItems items = .ok m) : ∃ a b c, items = [a, b, c] := by
  simp only [ofItems, bind_eq_ok] at h
  obtain ⟨pattern, -, length, -, stop, hstop, h⟩ := h
  have hlt := lt_of_readItem hstop
  have hlong : ¬3 < items.length := fun hlong => by
    rw [if_pos hlong] at h
    cases h
  exact List.length_eq_three.mp (by omega)

theorem sound_of_ofJson (h : ofJson v = .ok m) : m.Sound := by
  cases v with
  | object fields => exact sound_of_ofFields h
  | array items =>
    obtain ⟨a, b, c, rfl⟩ := eq_of_ofItems h
    exact sound_of_ofFields ((ofItems_eq_ofFields a b c).symm.trans h)
  | _ => cases h

/-! ## Main result -/

/-- **A match is read back from its JSON**: a match of sizes that is not too long, from its text and from the array of
its values. A match that a search finds is one of these as far as the sizes of the text and of the list of patterns are
sizes, and so is every match that has been read. -/
theorem json_round_trip :
    (∀ m : Match, m.Sound →
      m.json = ("\x7b\"pattern\":" ++ toString m.pattern ++ ",\"len\":" ++ toString m.length ++ ",\"end\":" ++
        toString m.stop ++ "\x7d").toList ∧
      (Json.read? m.json).map ofJson = some (.ok m) ∧
      ofJson (.array [.natural m.pattern, .natural m.length, .natural m.stop]) = .ok m) ∧
    (∀ (config : Builder) patterns a, config.build patterns = .ok a → ∀ (h : Haystack), ∀ m ∈ a.search h,
      m.pattern < patterns.length ∧ m.length ≤ m.stop ∧ m.stop ≤ h.size ∧
      (patterns.length ≤ wordCount → h.size < wordCount → m.Sound)) ∧
    ∀ v m, ofJson v = .ok m →
      m.Sound ∧ m.start + m.length = m.stop ∧ (Json.read? m.json).map ofJson = some (.ok m) := by
  refine ⟨fun m hm => ⟨json_eq m, hm.ofJson_read?, hm.ofJson_array⟩, fun config patterns a hbuild h m hm => ?_,
    fun v m hv => ?_⟩
  · obtain ⟨hpattern, hlength, hstop⟩ := (Automaton.recognizes_of_build hbuild).mem_search hm
    refine ⟨hpattern, hlength, hstop, fun hpatterns hsize => ⟨fun field => ?_, hlength⟩⟩
    cases field
    · exact hpattern.trans_le hpatterns
    · exact (hlength.trans hstop).trans_lt hsize
    · exact hstop.trans_lt hsize
  · have hm := sound_of_ofJson hv
    exact ⟨hm, hm.start_add_length, hm.ofJson_read?⟩

/-- The largest values there are, and a match that has been found. -/
theorem json_round_trip_max :
    (Json.read? (⟨0, wordCount - 1, wordCount - 1⟩ : Match).json).map ofJson =
      some (.ok ⟨0, wordCount - 1, wordCount - 1⟩) ∧
    (∃ a, ({} : Builder).build [[97, 98], [98]] = .ok a ∧ ⟨1, 1, 2⟩ ∈ a.search #[97, 98] ∧
      (⟨1, 1, 2⟩ : Match).Sound) ∧
    ofJson (.object [("end", .natural 5), ("len", .natural 2), ("pattern", .natural 1)]) = .ok ⟨1, 2, 5⟩ ∧
    (Json.read? (⟨1, 2, 5⟩ : Match).json).map ofJson = some (.ok ⟨1, 2, 5⟩) := by
  obtain ⟨hwritten, hfound, hread⟩ := json_round_trip
  have hmax : (⟨0, wordCount - 1, wordCount - 1⟩ : Match).Sound :=
    ⟨fun field => by cases field <;> decide, by decide⟩
  have hread' := hread (.object [("end", .natural 5), ("len", .natural 2), ("pattern", .natural 1)]) ⟨1, 2, 5⟩ rfl
  refine ⟨(hwritten _ hmax).2.1, ⟨_, rfl, by decide, ?_⟩, rfl, hread'.2.2⟩
  obtain ⟨-, -, -, hsound⟩ := hfound {} [[97, 98], [98]] _ rfl #[97, 98] ⟨1, 1, 2⟩ (by decide)
  exact hsound (by decide) (by decide)

end Match

end AhoCorasick
