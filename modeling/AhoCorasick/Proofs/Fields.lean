import AhoCorasick.Match.Fields
import Mathlib

/-!
# Reading the fields of a match

A draft `Holds` a list of fields if it has, for each field of a match, the one value that comes under its name, and
nothing if none does. Reading keeps this (`Draft.Holds.read`), and so it stops exactly at the first field that
`Offends`: one whose name has come before, or whose value is no size (`foldlM_read_of_offends`). Only a list without
such a field is read to its end, and what is made of the draft then depends on the values alone (`Draft.complete`).
Put together, this says of every list of fields which match it gives, or which error (`ofFields_outcome`).
-/

namespace AhoCorasick

namespace Json

theorem size?_eq_some_iff {v : Json} {n : Nat} : v.size? = some n ↔ n < wordCount ∧ v = .natural n := by
  cases v with
  | integer k =>
    simp only [size?, natural, integer.injEq, Option.ite_none_right_eq_some, Option.some.injEq]
    omega
  | _ => simp [size?, natural]

end Json

namespace Match

/-! ## The fields of a match -/

/-- The value of a field. -/
def get (m : Match) : Field → Nat
  | .pattern => m.pattern
  | .length => m.length
  | .stop => m.stop

/-- The values that come under the name of a field, in order. -/
def valuesOf (fields : List (String × Json)) (field : Field) : List Json :=
  (fields.filter (·.1 = field.name)).map Prod.snd

variable {fields before after : List (String × Json)} {pair : String × Json} {name : String} {v : Json}
  {field f : Field} {d d' : Draft} {m : Match} {e : ReadError} {n : Nat}

theorem Field.ofName?_name (field : Field) : Field.ofName? field.name = some field := by
  cases field <;> decide

theorem Field.eq_name_of_ofName? (h : Field.ofName? name = some field) : name = field.name := by
  have hname := List.find?_some h
  exact (beq_iff_eq.mp hname).symm

theorem Field.name_inj : f.name = field.name ↔ f = field := by
  constructor
  · intro h
    have hsome := ofName?_name f
    rw [h, ofName?_name] at hsome
    exact (Option.some.inj hsome).symm
  · rintro rfl
    rfl

theorem Field.ofName?_eq_none_iff : Field.ofName? name = none ↔ ∀ field : Field, name ≠ field.name := by
  constructor
  · rintro h field rfl
    rw [ofName?_name] at h
    cases h
  · intro h
    cases hname : Field.ofName? name with
    | none => rfl
    | some field => exact absurd (eq_name_of_ofName? hname) (h field)

theorem valuesOf_append (before after : List (String × Json)) (field : Field) :
    valuesOf (before ++ after) field = valuesOf before field ++ valuesOf after field := by
  rw [valuesOf, List.filter_append, List.map_append]
  rfl

theorem valuesOf_cons (pair : String × Json) (after : List (String × Json)) (field : Field) :
    valuesOf (pair :: after) field = if pair.1 = field.name then pair.2 :: valuesOf after field
      else valuesOf after field := by
  rw [valuesOf, List.filter_cons]
  split_ifs with h h' h'
  · rfl
  · simp [h'] at h
  · simp [h'] at h
  · rfl

theorem valuesOf_name_cons (field : Field) (v : Json) (after : List (String × Json)) :
    valuesOf ((field.name, v) :: after) field = v :: valuesOf after field := by
  rw [valuesOf_cons, if_pos rfl]

/-! ## What is wrong with a field -/

/-- What is wrong with a field that comes behind others: its name has come before, whatever it holds itself, or
its value is no size. -/
def Offends (before : List (String × Json)) (pair : String × Json) (e : ReadError) : Prop :=
  ∃ field : Field, pair.1 = field.name ∧
    (valuesOf before field ≠ [] ∧ e = .duplicate field ∨
      valuesOf before field = [] ∧ (∀ n < wordCount, pair.2 ≠ .natural n) ∧ e = .notSize pair.2)

/-- Nothing is wrong with any field. -/
def Clean (fields : List (String × Json)) : Prop :=
  ∀ before pair after e, fields = before ++ pair :: after → ¬Offends before pair e

theorem Offends.unique {e' : ReadError} (h : Offends before pair e) (h' : Offends before pair e') : e = e' := by
  obtain ⟨field, hfield, h⟩ := h
  obtain ⟨f, hf, h'⟩ := h'
  obtain rfl := Field.name_inj.mp (hfield.symm.trans hf)
  rcases h with ⟨hcame, rfl⟩ | ⟨hnew, -, rfl⟩
  · rcases h' with ⟨-, rfl⟩ | ⟨hnew, -⟩
    · rfl
    · exact absurd hnew hcame
  · rcases h' with ⟨hcame, -⟩ | ⟨-, -, rfl⟩
    · exact absurd hnew hcame
    · rfl

theorem readSize_eq_ok_iff : readSize v = .ok n ↔ n < wordCount ∧ v = .natural n := by
  rw [← Json.size?_eq_some_iff, readSize]
  cases v.size? <;> simp

theorem readSize_eq_error_iff : readSize v = .error e ↔ (∀ n < wordCount, v ≠ .natural n) ∧ e = .notSize v := by
  have hnone : (∀ n < wordCount, v ≠ .natural n) ↔ v.size? = none := by
    simp only [Option.eq_none_iff_forall_ne_some, ne_eq, Json.size?_eq_some_iff, not_and]
  rw [hnone, readSize]
  cases v.size? <;> simp [eq_comm]

namespace Draft

theorem get?_set (d : Draft) (n : Nat) (field f : Field) :
    (d.set n field).get? f = if f = field then some n else d.get? f := by
  cases field <;> cases f <;> rfl

theorem eq_of_get? (h : ∀ field, d.get? field = d'.get? field) : d = d' := by
  have hpattern := h .pattern
  have hlength := h .length
  have hstop := h .stop
  cases d
  cases d'
  simp only [get?] at hpattern hlength hstop
  rw [hpattern, hlength, hstop]

/-- For each field of a match, the draft has the one value under its name, or nothing if there is none. -/
def Holds (d : Draft) (fields : List (String × Json)) : Prop :=
  ∀ field, valuesOf fields field = (d.get? field).toList.map .natural ∧ ∀ n, d.get? field = some n → n < wordCount

theorem holds_nil : Holds {} [] := fun field => by cases field <;> exact ⟨rfl, fun n h => by cases h⟩

theorem Holds.get?_eq_none_iff (h : d.Holds fields) : d.get? field = none ↔ valuesOf fields field = [] := by
  rw [(h field).1]
  cases d.get? field <;> simp

theorem Holds.get?_eq_some_iff (h : d.Holds fields) :
    d.get? field = some n ↔ valuesOf fields field = [.natural n] ∧ n < wordCount := by
  have hsize := (h field).2 n
  rw [(h field).1]
  cases hget : d.get? field with
  | none => simp
  | some k =>
    simp only [Option.some.injEq, Option.toList_some, List.map_cons, List.map_nil, List.cons.injEq, and_true,
      Json.natural, Json.integer.injEq, Int.ofNat_inj]
    constructor
    · rintro rfl
      exact ⟨rfl, hsize hget⟩
    · exact And.left

theorem Holds.unique (h : d.Holds fields) (h' : d'.Holds fields) : d = d' := by
  refine eq_of_get? fun field => Option.ext fun n => ?_
  rw [h.get?_eq_some_iff, h'.get?_eq_some_iff]

/-! ## Reading one field -/

theorem Holds.set (h : d.Holds fields) (hnew : valuesOf fields field = []) (hn : n < wordCount) :
    (d.set n field).Holds (fields ++ [(field.name, .natural n)]) := by
  intro f
  rw [valuesOf_append, valuesOf_cons, get?_set]
  by_cases hf : f = field
  · subst hf
    rw [if_pos rfl, if_pos rfl, hnew]
    exact ⟨rfl, fun k hk => Option.some.inj hk ▸ hn⟩
  · have hname : field.name ≠ f.name := fun heq => hf (Field.name_inj.mp heq).symm
    rw [if_neg hname, if_neg hf]
    exact ⟨(List.append_nil _).trans (h f).1, (h f).2⟩

theorem Holds.skip (h : d.Holds fields) (hname : ∀ field : Field, name ≠ field.name) :
    d.Holds (fields ++ [(name, v)]) := by
  intro f
  rw [valuesOf_append, valuesOf_cons, if_neg (hname f)]
  exact ⟨(List.append_nil _).trans (h f).1, (h f).2⟩

theorem read_of_new (hget : d.get? field = none) (v : Json) :
    d.read (field.name, v) = (readSize v).map fun n => d.set n field := by
  simp [Draft.read, Field.ofName?_name, hget]

theorem Holds.read (h : d.Holds before) (pair : String × Json) :
    (∃ d', d.read pair = .ok d' ∧ d'.Holds (before ++ [pair]) ∧ ∀ e, ¬Offends before pair e) ∨
      ∃ e, d.read pair = .error e ∧ Offends before pair e := by
  obtain ⟨name, v⟩ := pair
  cases hname : Field.ofName? name with
  | none =>
    have hunknown := Field.ofName?_eq_none_iff.mp hname
    refine Or.inl ⟨d, by simp only [Draft.read, hname], h.skip hunknown, ?_⟩
    rintro e ⟨field, hfield, -⟩
    exact hunknown field hfield
  | some field =>
    obtain rfl := Field.eq_name_of_ofName? hname
    cases hget : d.get? field with
    | some k =>
      have hcame : valuesOf before field ≠ [] := fun hnil => by
        rw [h.get?_eq_none_iff.mpr hnil] at hget
        cases hget
      refine Or.inr ⟨.duplicate field, ?_, field, rfl, Or.inl ⟨hcame, rfl⟩⟩
      simp [Draft.read, hname, hget]
    | none =>
      have hnew := h.get?_eq_none_iff.mp hget
      have hread := read_of_new hget v
      cases hsize : readSize v with
      | error e =>
        obtain ⟨hnot, rfl⟩ := readSize_eq_error_iff.mp hsize
        exact Or.inr ⟨_, by rw [hread, hsize]; rfl, field, rfl, Or.inr ⟨hnew, hnot, rfl⟩⟩
      | ok n =>
        obtain ⟨hn, rfl⟩ := readSize_eq_ok_iff.mp hsize
        refine Or.inl ⟨d.set n field, by rw [hread, hsize]; rfl, h.set hnew hn, ?_⟩
        rintro e ⟨f, hf, ⟨hcame, -⟩ | ⟨-, hnot, -⟩⟩
        · obtain rfl := Field.name_inj.mp hf
          exact hcame hnew
        · exact hnot n hn rfl

end Draft

/-! ## Reading a list of fields -/

theorem Clean.of_append (h : Clean (before ++ after)) : Clean before := by
  rintro front pair back e rfl
  exact h front pair (back ++ after) e (by simp)

theorem Clean.concat (h : Clean fields) (hpair : ∀ e, ¬Offends fields pair e) : Clean (fields ++ [pair]) := by
  intro front p back e hsplit
  rcases List.eq_nil_or_concat back with rfl | ⟨back, q, rfl⟩
  · obtain ⟨rfl, hp⟩ := List.append_inj' hsplit rfl
    obtain rfl := List.singleton_inj.mp hp
    exact hpair e
  · rw [List.concat_eq_append, ← List.cons_append, ← List.append_assoc] at hsplit
    exact h front p back e (List.append_inj' hsplit rfl).1

theorem foldlM_read_concat (fields : List (String × Json)) (pair : String × Json) :
    (fields ++ [pair]).foldlM Draft.read {} = fields.foldlM Draft.read {} >>= fun d => d.read pair := by
  simp only [List.foldlM_append, List.foldlM_cons, List.foldlM_nil, bind_pure]

theorem Clean.foldlM_read (h : Clean fields) : ∃ d, fields.foldlM Draft.read {} = .ok d ∧ d.Holds fields := by
  induction fields using List.reverseRecOn with
  | nil => exact ⟨{}, rfl, Draft.holds_nil⟩
  | append_singleton fields pair ih =>
    obtain ⟨d, hd, hholds⟩ := ih h.of_append
    rw [foldlM_read_concat, hd]
    rcases hholds.read pair with ⟨d', hd', hholds', -⟩ | ⟨e, -, hoff⟩
    · exact ⟨d', hd', hholds'⟩
    · exact absurd hoff (h fields pair [] e rfl)

theorem foldlM_read_of_offends (hclean : Clean before) (hoff : Offends before pair e)
    (after : List (String × Json)) : (before ++ pair :: after).foldlM Draft.read {} = .error e := by
  obtain ⟨d, hd, hholds⟩ := hclean.foldlM_read
  rcases hholds.read pair with ⟨-, -, -, hnot⟩ | ⟨e', he', hoff'⟩
  · exact absurd hoff (hnot e)
  · rw [hoff.unique hoff', List.foldlM_append, hd, ← he']
    simp only [bind, Except.bind, List.foldlM_cons, he']

theorem clean_or_offends (fields : List (String × Json)) :
    Clean fields ∨ ∃ before pair after e, fields = before ++ pair :: after ∧ Clean before ∧ Offends before pair e := by
  induction fields using List.reverseRecOn with
  | nil => exact Or.inl fun before pair after e h => by simp at h
  | append_singleton fields pair ih =>
    rcases ih with hclean | ⟨before, p, after, e, rfl, hclean, hoff⟩
    · by_cases hpair : ∃ e, Offends fields pair e
      · obtain ⟨e, hoff⟩ := hpair
        exact Or.inr ⟨fields, pair, [], e, rfl, hclean, hoff⟩
      · exact Or.inl (hclean.concat (not_exists.mp hpair))
    · exact Or.inr ⟨before, p, after ++ [pair], e, by simp, hclean, hoff⟩

/-! ## From a draft to a match -/

namespace Draft

/-- The match of a draft that lacks nothing. -/
def complete (d : Draft) : Except ReadError Match := do
  let pattern ← d.require .pattern
  let length ← d.require .length
  let stop ← d.require .stop
  check pattern length stop

theorem complete_cases (d : Draft) :
    (∃ field, [Field.pattern, .length, .stop].find? (d.get? · = none) = some field ∧
      d.complete = .error (.missing field)) ∨
    ∃ m : Match, (∀ field, d.get? field = some (m.get field)) ∧
      d.complete = check m.pattern m.length m.stop := by
  cases hpattern : d.get? .pattern with
  | none =>
    refine Or.inl ⟨.pattern, by simp [hpattern], ?_⟩
    simp only [complete, require, hpattern, bind, Except.bind]
  | some pattern =>
    cases hlength : d.get? .length with
    | none =>
      refine Or.inl ⟨.length, by simp [hpattern, hlength], ?_⟩
      simp only [complete, require, hpattern, hlength, bind, Except.bind]
    | some length =>
      cases hstop : d.get? .stop with
      | none =>
        refine Or.inl ⟨.stop, by simp [hpattern, hlength, hstop], ?_⟩
        simp only [complete, require, hpattern, hlength, hstop, bind, Except.bind]
      | some stop =>
        refine Or.inr ⟨⟨pattern, length, stop⟩, fun field => ?_, ?_⟩
        · cases field
          · exact hpattern
          · exact hlength
          · exact hstop
        · simp only [complete, require, hpattern, hlength, hstop, bind, Except.bind]

end Draft

theorem ofFields_eq (fields : List (String × Json)) :
    ofFields fields = fields.foldlM Draft.read {} >>= Draft.complete := rfl

theorem ofFields_of_offends (hclean : Clean before) (hoff : Offends before pair e)
    (after : List (String × Json)) : ofFields (before ++ pair :: after) = .error e := by
  rw [ofFields_eq, foldlM_read_of_offends hclean hoff]
  rfl

/-- Each field comes once, and its value in the match. -/
def Given (fields : List (String × Json)) (m : Match) : Prop :=
  ∀ field, valuesOf fields field = [.natural (m.get field)] ∧ m.get field < wordCount

theorem Clean.ofFields_cases (h : Clean fields) :
    (∃ field, [Field.pattern, .length, .stop].find? (valuesOf fields · = []) = some field ∧
      ofFields fields = .error (.missing field)) ∨
    ∃ m : Match, Given fields m ∧ ofFields fields = check m.pattern m.length m.stop := by
  obtain ⟨d, hd, hholds⟩ := h.foldlM_read
  have hcomplete : ofFields fields = d.complete := by
    rw [ofFields_eq, hd]
    rfl
  rw [hcomplete]
  rcases d.complete_cases with ⟨field, hfind, herror⟩ | ⟨m, hget, hcheck⟩
  · refine Or.inl ⟨field, ?_, herror⟩
    simpa only [hholds.get?_eq_none_iff] using hfind
  · exact Or.inr ⟨m, fun field => hholds.get?_eq_some_iff.mp (hget field), hcheck⟩

theorem Given.unique {m' : Match} (h : Given fields m) (h' : Given fields m') : m = m' := by
  have hget : ∀ field, m.get field = m'.get field := fun field => by
    have hvalues := (h field).1.symm.trans (h' field).1
    simpa [Json.natural] using hvalues
  obtain ⟨pattern, length, stop⟩ := m
  obtain ⟨pattern', length', stop'⟩ := m'
  exact congr (congr (congrArg Match.mk (hget .pattern)) (hget .length)) (hget .stop)

theorem clean_of_values
    (h : ∀ field, valuesOf fields field = [] ∨ ∃ n < wordCount, valuesOf fields field = [.natural n]) :
    Clean fields := by
  rintro before ⟨name, v⟩ after e rfl ⟨field, rfl, hbad⟩
  have hvalues := h field
  rw [valuesOf_append, valuesOf_name_cons] at hvalues
  rcases hvalues with hnil | ⟨n, hn, hone⟩
  · exact List.append_ne_nil_of_right_ne_nil _ (List.cons_ne_nil _ _) hnil
  · obtain ⟨hbefore, hv⟩ : valuesOf before field = [] ∧ v = .natural n := by
      cases hvalues : valuesOf before field with
      | nil => simp_all
      | cons w ws => simp_all
    rcases hbad with ⟨hcame, -⟩ | ⟨-, hnot, -⟩
    · exact hcame hbefore
    · exact hnot n hn hv

theorem Given.clean (h : Given fields m) : Clean fields :=
  clean_of_values fun field => Or.inr ⟨_, (h field).2, (h field).1⟩

theorem Given.find?_eq_none (h : Given fields m) (fs : List Field) :
    fs.find? (valuesOf fields · = []) = none := by
  rw [List.find?_eq_none]
  intro field _ hnil
  rw [decide_eq_true_eq, (h field).1] at hnil
  cases hnil

theorem Given.ofFields_eq (h : Given fields m) : ofFields fields = check m.pattern m.length m.stop := by
  rcases h.clean.ofFields_cases with ⟨field, hfind, -⟩ | ⟨m', h', hcheck⟩
  · rw [h.find?_eq_none] at hfind
    cases hfind
  · rw [h.unique h', hcheck]

theorem Clean.ofFields_of_missing (h : Clean fields)
    (hfind : [Field.pattern, .length, .stop].find? (valuesOf fields · = []) = some field) :
    ofFields fields = .error (.missing field) := by
  rcases h.ofFields_cases with ⟨f, hf, herror⟩ | ⟨m, hgiven, -⟩
  · rw [hfind, Option.some.injEq] at hf
    rw [herror, hf]
  · rw [hgiven.find?_eq_none] at hfind
    cases hfind

theorem check_eq_ok_iff {m' : Match} :
    check m.pattern m.length m.stop = .ok m' ↔ m.length ≤ m.stop ∧ m = m' := by
  rw [check]
  split_ifs with hlt
  · simp [Nat.not_le.mpr hlt]
  · simp [Nat.not_lt.mp hlt]

theorem check_eq_error_iff :
    check m.pattern m.length m.stop = .error e ↔ m.stop < m.length ∧ e = .overlong m.length m.stop := by
  rw [check]
  split_ifs with hlt
  · simp [hlt, eq_comm]
  · simp [hlt]

theorem ofFields_cases (fields : List (String × Json)) :
    (∃ before pair after e, fields = before ++ pair :: after ∧ Clean before ∧ Offends before pair e ∧
      ofFields fields = .error e) ∨
    (Clean fields ∧ ∃ field, [Field.pattern, .length, .stop].find? (valuesOf fields · = []) = some field ∧
      ofFields fields = .error (.missing field)) ∨
    ∃ m : Match, Given fields m ∧ ofFields fields = check m.pattern m.length m.stop := by
  rcases clean_or_offends fields with hclean | ⟨before, pair, after, e, rfl, hclean, hoff⟩
  · rcases hclean.ofFields_cases with hmissing | hgiven
    · exact Or.inr (Or.inl ⟨hclean, hmissing⟩)
    · exact Or.inr (Or.inr hgiven)
  · exact Or.inl ⟨before, pair, after, e, rfl, hclean, hoff, ofFields_of_offends hclean hoff after⟩

/-! ## Main result -/

/-- **What a list of fields is read as.** It gives a match exactly if each field comes once, with a size, and the match
is not too long. Otherwise the error is that of the first field with which something is wrong; if there is none, that
of the first field that is missing; and only if none is missing, that of a match that is too long. -/
theorem ofFields_outcome (fields : List (String × Json)) :
    (∀ m, ofFields fields = .ok m ↔ Given fields m ∧ m.length ≤ m.stop) ∧
    ∀ e, ofFields fields = .error e ↔
      (∃ before pair after, fields = before ++ pair :: after ∧ Clean before ∧ Offends before pair e) ∨
      Clean fields ∧
        ((∃ field, [Field.pattern, .length, .stop].find? (valuesOf fields · = []) = some field ∧
            e = .missing field) ∨
          ∃ m : Match, Given fields m ∧ m.stop < m.length ∧ e = .overlong m.length m.stop ∧
            e.message = "match of length " ++ toString m.length ++ " cannot end at " ++ toString m.stop) := by
  refine ⟨fun m => ⟨fun hok => ?_, ?_⟩, fun e => ⟨fun herror => ?_, ?_⟩⟩
  · rcases ofFields_cases fields with ⟨_, _, _, _, -, -, -, h⟩ | ⟨-, _, -, h⟩ | ⟨m', hgiven, hcheck⟩
    · cases hok.symm.trans h
    · cases hok.symm.trans h
    · obtain ⟨hle, rfl⟩ := check_eq_ok_iff.mp (hcheck.symm.trans hok)
      exact ⟨hgiven, hle⟩
  · rintro ⟨hgiven, hle⟩
    rw [hgiven.ofFields_eq, check_eq_ok_iff]
    exact ⟨hle, rfl⟩
  · rcases ofFields_cases fields with
      ⟨before, pair, after, e', hsplit, hclean, hoff, h⟩ | ⟨hclean, field, hfind, h⟩ | ⟨m, hgiven, hcheck⟩
    · obtain rfl := Except.error.inj (h.symm.trans herror)
      exact Or.inl ⟨before, pair, after, hsplit, hclean, hoff⟩
    · obtain rfl := Except.error.inj (h.symm.trans herror)
      exact Or.inr ⟨hclean, Or.inl ⟨field, hfind, rfl⟩⟩
    · obtain ⟨hlt, rfl⟩ := check_eq_error_iff.mp (hcheck.symm.trans herror)
      exact Or.inr ⟨hgiven.clean, Or.inr ⟨m, hgiven, hlt, rfl, rfl⟩⟩
  · rintro (⟨before, pair, after, rfl, hclean, hoff⟩ | ⟨hclean, ⟨field, hfind, rfl⟩ | ⟨m, hgiven, hlt, rfl, -⟩⟩)
    · exact ofFields_of_offends hclean hoff after
    · exact hclean.ofFields_of_missing hfind
    · rw [hgiven.ofFields_eq, check_eq_error_iff]
      exact ⟨hlt, rfl⟩

example : ofFields [("end", .natural 1), ("x", .null), ("end", .null), ("len", .null)] =
    .error (.duplicate .stop) := rfl

end Match

end AhoCorasick
