import AhoCorasick.Proofs.Fields
import AhoCorasick.Proofs.Objects

/-!
# The shapes of a match

A match can be given as an object, as an array of three values or as a list of fields, and all of them are read as
a list of fields. A field of another name is skipped wherever it stands (`ofFields_skip`). Fields with which nothing
is wrong are read onto a draft that depends on the values alone, and so their order makes no difference
(`ofFields_perm`).
-/

namespace AhoCorasick

namespace Match

variable {fields fields' : List (String × Json)} {name : String}

/-! ## Lists of fields -/

theorem Draft.read_of_unknown (d : Draft) (hname : ∀ field : Field, name ≠ field.name) (v : Json) :
    d.read (name, v) = .ok d := by
  rw [Draft.read, Field.ofName?_eq_none_iff.mpr hname]

theorem ofFields_skip (before after : List (String × Json)) (hname : ∀ field : Field, name ≠ field.name) (v : Json) :
    ofFields (before ++ (name, v) :: after) = ofFields (before ++ after) := by
  have hskip : ∀ d : Draft, ((name, v) :: after).foldlM Draft.read d = after.foldlM Draft.read d := fun d => by
    rw [List.foldlM_cons, d.read_of_unknown hname]
    rfl
  simp only [ofFields_eq, List.foldlM_append, hskip]

theorem valuesOf_perm (h : fields.Perm fields') (field : Field) :
    (valuesOf fields field).Perm (valuesOf fields' field) :=
  (h.filter _).map _

theorem ofFields_perm (hperm : fields.Perm fields')
    (h : ∀ field, valuesOf fields field = [] ∨ ∃ n < wordCount, valuesOf fields field = [.natural n]) :
    ofFields fields = ofFields fields' := by
  have hvalues : ∀ field, valuesOf fields' field = valuesOf fields field := fun field => by
    have hsame := (valuesOf_perm hperm field).symm
    rcases h field with hnil | ⟨n, -, hone⟩
    · rw [hnil] at hsame ⊢
      exact hsame.eq_nil
    · rw [hone] at hsame ⊢
      exact hsame.eq_singleton
  obtain ⟨d, hd, hholds⟩ := (clean_of_values h).foldlM_read
  obtain ⟨d', hd', hholds'⟩ := (clean_of_values fun field => hvalues field ▸ h field).foldlM_read
  have hsame : d = d' := hholds.unique fun field => hvalues field ▸ hholds' field
  rw [ofFields_eq, ofFields_eq, hd, hd', hsame]

/-! ## Arrays -/

theorem ofItems_eq_ofFields (a b c : Json) :
    ofItems [a, b, c] = ofFields [(Field.pattern.name, a), (Field.length.name, b), (Field.stop.name, c)] := by
  have hitems : ofItems [a, b, c] = readSize a >>= fun pattern => readSize b >>= fun length =>
      readSize c >>= fun stop => check pattern length stop := rfl
  have hpattern : Draft.read {} (Field.pattern.name, a) = (readSize a).map fun n => { pattern := some n } :=
    Draft.read_of_new rfl a
  have hlength : ∀ n, Draft.read { pattern := some n } (Field.length.name, b) =
      (readSize b).map fun k => { pattern := some n, length := some k } := fun n => Draft.read_of_new rfl b
  have hstop : ∀ n k, Draft.read { pattern := some n, length := some k } (Field.stop.name, c) =
      (readSize c).map fun s => ⟨some n, some k, some s⟩ := fun n k => Draft.read_of_new rfl c
  rw [hitems, ofFields_eq, List.foldlM_cons, hpattern]
  cases readSize a with
  | error e => rfl
  | ok pattern =>
    simp only [Except.map, bind, Except.bind, List.foldlM_cons, hlength]
    cases readSize b with
    | error e => rfl
    | ok length =>
      simp only [hstop]
      cases readSize c with
      | error e => rfl
      | ok stop => rfl

/-! ## Main result -/

/-- **Every shape is read as a list of fields**: an object as its fields by ascending name, of each name the last one,
and an array as its items under the names of the fields. A field of another name makes no difference, and neither does
the order, if every field comes once at most and has a size. -/
theorem shapes_agree :
    (∀ entries : List (String × Json), ∃ fields,
      (∀ fields', Json.Ascending fields' ∧ (∀ name, fields'.lookup name = entries.reverse.lookup name) ↔
        fields' = fields) ∧
      ofJson (.ofFields entries) = ofFields fields) ∧
    (∀ a b c, ofJson (.array [a, b, c]) = ofFields [("pattern", a), ("len", b), ("end", c)]) ∧
    (∀ before name v after, (∀ field : Field, name ≠ field.name) →
      ofFields (before ++ (name, v) :: after) = ofFields (before ++ after)) ∧
    ∀ fields fields' : List (String × Json), fields.Perm fields' →
      (∀ field, valuesOf fields field = [] ∨ ∃ n < wordCount, valuesOf fields field = [.natural n]) →
      ofFields fields = ofFields fields' := by
  refine ⟨fun entries => ⟨Json.sorted entries, fun fields' => ?_, rfl⟩, ofItems_eq_ofFields,
    fun before name v after hname => ofFields_skip before after hname v,
    fun fields fields' hperm hvalues => ofFields_perm hperm hvalues⟩
  constructor
  · rintro ⟨hascending, hlookup⟩
    refine hascending.eq_of_lookup (Json.ascending_sorted entries) fun name => ?_
    rw [hlookup, Json.lookup_sorted]
  · rintro rfl
    exact ⟨Json.ascending_sorted entries, Json.lookup_sorted entries⟩

/-- One match in two orders, with a field that is no field of a match. -/
theorem shapes_agree_five :
    ofFields ([("end", .natural 5)] ++ ("x", .null) :: [("len", .natural 2), ("pattern", .natural 1)]) =
      ofFields ([("end", .natural 5)] ++ [("len", .natural 2), ("pattern", .natural 1)]) ∧
    ofFields [("len", .natural 2), ("end", .natural 5), ("pattern", .natural 1)] =
      ofFields [("end", .natural 5), ("len", .natural 2), ("pattern", .natural 1)] ∧
    ofFields [("end", .natural 5), ("len", .natural 2), ("pattern", .natural 1)] = .ok ⟨1, 2, 5⟩ := by
  obtain ⟨-, -, hskip, hperm⟩ := shapes_agree
  refine ⟨hskip _ _ _ _ fun field => ?_, hperm _ _ (List.Perm.swap _ _ _) fun field => ?_, rfl⟩
  · cases field <;> decide
  · cases field
    · exact Or.inr ⟨1, by decide, rfl⟩
    · exact Or.inr ⟨2, by decide, rfl⟩
    · exact Or.inr ⟨5, by decide, rfl⟩

end Match

end AhoCorasick
