import AhoCorasick.Text.Literal
import Mathlib

/-!
# Literals are unambiguous

The text of a literal begins with its name, its word or its digits (`front`) and goes on with what stands in
brackets, if anything does (`body`). Behind a literal comes the end of the text, a comma, or what closes the literal
around it (`Ended`), and none of these can be taken for more of the literal. So a text tells where its first literal
ends and which one this is (`Plain.told`), as long as names and words are made of letters, digits and underscores
(`Plain`).
-/

namespace AhoCorasick

namespace Literal

/-- The characters of names, words and numbers. -/
def isNameChar (c : Char) : Bool := c.isAlphanum || c == '_'

/-- A name begins with a letter. -/
def isName (s : String) : Bool := s.toList.head?.any Char.isAlpha && s.toList.all isNameChar

/-- A literal without quoted texts, whose names and words are names. Only a tuple may lack its name. -/
inductive Plain : Literal → Prop where
  | number (n : Nat) : Plain (.number n)
  | word {w : String} : isName w → Plain (.word w)
  | list {items : List Literal} : (∀ l ∈ items, Plain l) → Plain (.list items)
  | tuple {name : String} {items : List Literal} : name = "" ∨ isName name → (∀ l ∈ items, Plain l) →
      Plain (.tuple name items)
  | record {name : String} {fields : List (String × Literal)} : isName name → (∀ f ∈ fields, isName f.1) →
      (∀ f ∈ fields, Plain f.2) → Plain (.record name fields)

/-- What closes a list, a tuple or a record. -/
inductive Closing : List Char → Prop where
  | bracket : Closing [']']
  | parenthesis : Closing [')']
  | brace : Closing [' ', '\x7d']

/-- What can stand behind a literal. -/
inductive Ended : List Char → Prop where
  | nil : Ended []
  | comma (rest : List Char) : Ended (',' :: rest)
  | closing {close : List Char} (rest : List Char) : Closing close → Ended (close ++ rest)

variable {l l' : Literal} {u v r s close : List Char} {name : String}

/-! ## Names -/

/-- The characters of a name come to an end where another character stands. -/
theorem append_unique (hu : ∀ c ∈ u, isNameChar c = true) (hv : ∀ c ∈ v, isNameChar c = true)
    (hr : ∀ c ∈ r.head?, isNameChar c = false) (hs : ∀ c ∈ s.head?, isNameChar c = false)
    (h : u ++ r = v ++ s) : u = v ∧ r = s := by
  have hstop : ∀ {t : List Char}, (∀ c ∈ t.head?, isNameChar c = false) → t.takeWhile isNameChar = [] := by
    intro t ht
    cases t with
    | nil => rfl
    | cons c t => simp [ht c rfl]
  have hnames : u = v := by
    have htake := congrArg (List.takeWhile isNameChar) h
    rwa [List.takeWhile_append_of_pos hu, List.takeWhile_append_of_pos hv, hstop hr, hstop hs,
      List.append_nil, List.append_nil] at htake
  subst hnames
  exact ⟨rfl, List.append_cancel_left h⟩

theorem isNameChar_of_isName (h : isName name = true) : ∀ c ∈ name.toList, isNameChar c = true := by
  rw [isName, Bool.and_eq_true, List.all_eq_true] at h
  exact h.2

theorem exists_cons_of_isName (h : isName name = true) :
    ∃ c cs, name.toList = c :: cs ∧ c.isAlpha = true := by
  rw [isName, Bool.and_eq_true] at h
  cases hname : name.toList with
  | nil => simp [hname] at h
  | cons c cs => exact ⟨c, cs, rfl, by simpa [hname] using h.1⟩

theorem isNameChar_of_mem_toDigits {n : Nat} {c : Char} (hc : c ∈ Nat.toDigits 10 n) : isNameChar c = true := by
  have hdigit : c.isDigit = true := Nat.isDigit_of_mem_toDigits (by decide) (by decide) hc
  simp [isNameChar, Char.isAlphanum, hdigit]

theorem toDigits_injective {m n : Nat} (h : Nat.toDigits 10 m = Nat.toDigits 10 n) : m = n := by
  calc m = Nat.ofDigitChars 10 (Nat.toDigits 10 m) 0 := (Nat.ofDigitChars_toDigits (by decide) (by decide)).symm
    _ = Nat.ofDigitChars 10 (Nat.toDigits 10 n) 0 := by rw [h]
    _ = n := Nat.ofDigitChars_toDigits (by decide) (by decide)

theorem isDigit_eq_false_of_isAlpha {c : Char} (h : c.isAlpha = true) : c.isDigit = false := by
  simp only [Char.isAlpha, Char.isUpper, Char.isLower, Bool.or_eq_true, Bool.and_eq_true, decide_eq_true_eq] at h
  simp only [Char.isDigit, Bool.and_eq_false_iff, decide_eq_false_iff_not]
  right
  rcases h with h | h <;> simp [UInt32.le_iff_toNat_le] at h ⊢ <;> omega

theorem toDigits_ne_name (n : Nat) (h : isName name = true) : Nat.toDigits 10 n ≠ name.toList := by
  intro heq
  obtain ⟨c, cs, hname, hc⟩ := exists_cons_of_isName h
  have hmem : c ∈ Nat.toDigits 10 n := by
    rw [heq, hname]
    exact List.mem_cons_self
  have hdigit : c.isDigit = true := Nat.isDigit_of_mem_toDigits (by decide) (by decide) hmem
  rw [isDigit_eq_false_of_isAlpha hc] at hdigit
  cases hdigit

/-! ## Items -/

/-- A literal begins with a character of a name or with what opens it. -/
def begins (c : Char) : Bool := isNameChar c || c == '[' || c == '('

theorem begins_of_isNameChar {c : Char} (h : isNameChar c = true) : begins c = true := by
  simp [begins, h]

theorem isNameChar_eq_false {c : Char} (h : begins c = false) : isNameChar c = false := by
  simp only [begins, Bool.or_eq_false_iff] at h
  exact h.1.1

theorem exists_begins_of_isName (h : isName name = true) (rest : List Char) :
    ∃ c ∈ (name.toList ++ rest).head?, begins c = true := by
  obtain ⟨c, cs, hname, -⟩ := exists_cons_of_isName h
  have hc : isNameChar c = true := isNameChar_of_isName h c (by rw [hname]; exact List.mem_cons_self)
  exact ⟨c, by rw [hname]; rfl, begins_of_isNameChar hc⟩

theorem Ended.begins_eq_false (h : Ended r) : ∀ c ∈ r.head?, begins c = false := by
  intro c hc
  cases h with
  | nil => cases hc
  | comma rest =>
    cases hc
    decide
  | closing rest hclose =>
    cases hclose <;>
    · cases hc
      decide

theorem commaSeparated_cons (u : List Char) (us : List (List Char)) :
    commaSeparated (u :: us) = u ++ us.flatMap fun v => ',' :: ' ' :: v := by
  induction us generalizing u with
  | nil => simp [commaSeparated]
  | cons v us ih =>
    calc commaSeparated (u :: v :: us) = u ++ ',' :: ' ' :: commaSeparated (v :: us) := by simp [commaSeparated]
      _ = _ := by rw [ih, List.flatMap_cons, List.cons_append, List.cons_append]

theorem renderItems_eq (items : List Literal) : renderItems items = items.map render := by
  induction items with
  | nil => simp [renderItems]
  | cons l items ih => rw [renderItems, ih, List.map_cons]

/-- A field is its name, a colon and its value. -/
def renderField (f : String × Literal) : List Char := f.1.toList ++ ':' :: ' ' :: f.2.render

theorem renderFields_eq (fields : List (String × Literal)) : renderFields fields = fields.map renderField := by
  induction fields with
  | nil => simp [renderFields]
  | cons f fields ih => rw [renderFields, ih, List.map_cons, renderField]

section Items

variable {α : Type} {f : α → List Char} {xs ys : List α}

/-- What is written of one thing tells where it ends and which thing this is. -/
def Told (f : α → List Char) (x y : α) : Prop :=
  ∀ r s, Ended r → Ended s → f x ++ r = f y ++ s → x = y ∧ r = s

theorem ended_flatMap (hclose : Closing close) (xs : List α) (r : List Char) :
    Ended ((xs.flatMap fun x => ',' :: ' ' :: f x) ++ (close ++ r)) := by
  cases xs with
  | nil => exact .closing r hclose
  | cons x xs => exact .comma _

theorem flatMap_unique (hclose : Closing close) (hitems : ∀ x ∈ xs, ∀ y ∈ ys, Told f x y)
    (h : (xs.flatMap fun x => ',' :: ' ' :: f x) ++ (close ++ r) =
      (ys.flatMap fun y => ',' :: ' ' :: f y) ++ (close ++ s)) : xs = ys ∧ r = s := by
  induction xs generalizing ys with
  | nil =>
    cases ys with
    | nil => exact ⟨rfl, List.append_cancel_left h⟩
    | cons y ys => cases hclose <;> simp at h
  | cons x xs ih =>
    cases ys with
    | nil => cases hclose <;> simp at h
    | cons y ys =>
      simp only [List.flatMap_cons, List.cons_append, List.cons.injEq, true_and, List.append_assoc] at h
      obtain ⟨rfl, hrest⟩ := hitems x List.mem_cons_self y List.mem_cons_self _ _
        (ended_flatMap hclose xs r) (ended_flatMap hclose ys s) h
      obtain ⟨rfl, hr⟩ := ih (fun x hx y hy => hitems x (List.mem_cons_of_mem _ hx) y (List.mem_cons_of_mem _ hy))
        hrest
      exact ⟨rfl, hr⟩

theorem closing_ne (hclose : Closing close) (hbegins : ∃ c ∈ u.head?, begins c = true) :
    close ++ r ≠ u ++ s := by
  intro h
  obtain ⟨c, hc, hbegin⟩ := hbegins
  have hhead : c ∈ (close ++ r).head? := by
    rw [h, List.head?_append_of_ne_nil _ (List.ne_nil_of_mem (List.mem_of_head? hc))]
    exact hc
  rw [(Ended.closing r hclose).begins_eq_false c hhead] at hbegin
  cases hbegin

theorem commaSeparated_unique (hclose : Closing close) (hitems : ∀ x ∈ xs, ∀ y ∈ ys, Told f x y)
    (hbegins : ∀ x, x ∈ xs ∨ x ∈ ys → ∃ c ∈ (f x).head?, begins c = true)
    (h : commaSeparated (xs.map f) ++ (close ++ r) = commaSeparated (ys.map f) ++ (close ++ s)) :
    xs = ys ∧ r = s := by
  cases xs with
  | nil =>
    cases ys with
    | nil => exact ⟨rfl, List.append_cancel_left h⟩
    | cons y ys =>
      change close ++ r = _ at h
      rw [List.map_cons, commaSeparated_cons, List.append_assoc] at h
      exact absurd h (closing_ne hclose (hbegins y (Or.inr List.mem_cons_self)))
  | cons x xs =>
    cases ys with
    | nil =>
      change _ = close ++ s at h
      rw [List.map_cons, commaSeparated_cons, List.append_assoc] at h
      exact absurd h.symm (closing_ne hclose (hbegins x (Or.inl List.mem_cons_self)))
    | cons y ys =>
      simp only [List.map_cons, commaSeparated_cons, List.flatMap_map, List.append_assoc] at h
      obtain ⟨rfl, hrest⟩ := hitems x List.mem_cons_self y List.mem_cons_self _ _
        (ended_flatMap hclose xs r) (ended_flatMap hclose ys s) h
      obtain ⟨rfl, hr⟩ := flatMap_unique hclose
        (fun x hx y hy => hitems x (List.mem_cons_of_mem _ hx) y (List.mem_cons_of_mem _ hy)) hrest
      exact ⟨rfl, hr⟩

end Items

/-! ## Literals -/

/-- What opens the brackets of a list, a tuple or a record. -/
inductive Opened : List Char → Prop where
  | bracket (rest : List Char) : Opened ('[' :: rest)
  | parenthesis (rest : List Char) : Opened ('(' :: rest)
  | brace (rest : List Char) : Opened (' ' :: '\x7b' :: rest)

theorem Opened.ne (hu : Opened u) (hr : Ended r) : r ≠ u := by
  rintro rfl
  cases hu with
  | bracket rest => exact absurd (hr.begins_eq_false '[' rfl) (by decide)
  | parenthesis rest => exact absurd (hr.begins_eq_false '(' rfl) (by decide)
  | brace rest =>
    generalize htext : ' ' :: '\x7b' :: rest = text at hr
    cases hr with
    | nil => cases htext
    | comma rest => simp at htext
    | closing rest hclose => cases hclose <;> simp at htext

/-- The text before the brackets. -/
def front : Literal → List Char
  | .number n => Nat.toDigits 10 n
  | .word w => w.toList
  | .quoted _ | .list _ => []
  | .tuple name _ | .record name _ => name.toList

/-- The text from the brackets on. -/
def body : Literal → List Char
  | .number _ | .word _ => []
  | .quoted s => Text.quote s
  | .list items => '[' :: commaSeparated (items.map render) ++ [']']
  | .tuple _ items => '(' :: commaSeparated (items.map render) ++ [')']
  | .record _ fields => ' ' :: '\x7b' :: ' ' :: commaSeparated (fields.map renderField) ++ [' ', '\x7d']

theorem render_eq (l : Literal) : l.render = l.front ++ l.body := by
  cases l <;> simp [render, front, body, renderItems_eq, renderFields_eq]

namespace Plain

theorem isNameChar_of_mem_front (hl : Plain l) : ∀ c ∈ l.front, isNameChar c = true := by
  intro c hc
  cases hl with
  | number n => exact isNameChar_of_mem_toDigits hc
  | word hw => exact isNameChar_of_isName hw c hc
  | list _ => cases hc
  | tuple hname _ =>
    rcases hname with rfl | hname
    · cases hc
    · exact isNameChar_of_isName hname c hc
  | record hname _ _ => exact isNameChar_of_isName hname c hc

theorem isNameChar_eq_false_of_body (hl : Plain l) (hr : Ended r) :
    ∀ c ∈ (l.body ++ r).head?, isNameChar c = false := by
  intro c hc
  cases hl with
  | number _ | word _ => exact isNameChar_eq_false (hr.begins_eq_false c hc)
  | list _ | tuple _ _ | record _ _ _ =>
    cases hc
    decide

theorem exists_begins (hl : Plain l) : ∃ c ∈ l.render.head?, begins c = true := by
  rw [render_eq]
  cases hl with
  | number n =>
    obtain ⟨c, cs, hn⟩ := List.exists_cons_of_ne_nil (Nat.toDigits_ne_nil (n := n) (b := 10))
    have hc : isNameChar c = true := isNameChar_of_mem_toDigits (n := n) (by rw [hn]; exact List.mem_cons_self)
    exact ⟨c, by rw [front, hn]; rfl, begins_of_isNameChar hc⟩
  | word hw => exact exists_begins_of_isName hw []
  | list _ => exact ⟨'[', rfl, by decide⟩
  | tuple hn _ =>
    rcases hn with rfl | hn
    · exact ⟨'(', rfl, by decide⟩
    · exact exists_begins_of_isName hn _
  | record hn _ _ => exact exists_begins_of_isName hn _

theorem front_eq (hl : Plain l) (hl' : Plain l') (hr : Ended r) (hs : Ended s)
    (h : l.render ++ r = l'.render ++ s) : l.front = l'.front ∧ l.body ++ r = l'.body ++ s := by
  rw [render_eq, render_eq, List.append_assoc, List.append_assoc] at h
  exact append_unique hl.isNameChar_of_mem_front hl'.isNameChar_of_mem_front
    (hl.isNameChar_eq_false_of_body hr) (hl'.isNameChar_eq_false_of_body hs) h

end Plain

theorem told_renderField {f g : String × Literal} (hf : isName f.1 = true) (hg : isName g.1 = true)
    (hvalue : Told render f.2 g.2) : Told renderField f g := by
  intro r s hr hs h
  rw [renderField, renderField, List.append_assoc, List.append_assoc] at h
  obtain ⟨hname, hrest⟩ := append_unique (isNameChar_of_isName hf) (isNameChar_of_isName hg)
    (by rintro c ⟨⟩; decide) (by rintro c ⟨⟩; decide) h
  simp only [List.cons_append, List.cons.injEq, true_and] at hrest
  obtain ⟨hvalues, hrs⟩ := hvalue r s hr hs hrest
  exact ⟨Prod.ext (String.toList_inj.mp hname) hvalues, hrs⟩

theorem items_unique {items items' : List Literal} (hclose : Closing close) (hitems : ∀ l ∈ items, Plain l)
    (hitems' : ∀ l ∈ items', Plain l) (htold : ∀ l ∈ items, ∀ {l'}, Plain l' → Told render l l')
    (h : commaSeparated (items.map render) ++ (close ++ r) = commaSeparated (items'.map render) ++ (close ++ s)) :
    items = items' ∧ r = s := by
  refine commaSeparated_unique hclose (fun l hl l' hl' => htold l hl (hitems' l' hl')) (fun l hl => ?_) h
  rcases hl with hl | hl
  · exact (hitems l hl).exists_begins
  · exact (hitems' l hl).exists_begins

theorem fields_unique {fields fields' : List (String × Literal)} (hclose : Closing close)
    (hnames : ∀ f ∈ fields, isName f.1 = true) (hnames' : ∀ f ∈ fields', isName f.1 = true)
    (htold : ∀ f ∈ fields, ∀ g ∈ fields', Told render f.2 g.2)
    (h : commaSeparated (fields.map renderField) ++ (close ++ r) =
      commaSeparated (fields'.map renderField) ++ (close ++ s)) : fields = fields' ∧ r = s := by
  refine commaSeparated_unique hclose
    (fun f hf g hg => told_renderField (hnames f hf) (hnames' g hg) (htold f hf g hg)) (fun f hf => ?_) h
  rcases hf with hf | hf
  · exact exists_begins_of_isName (hnames f hf) _
  · exact exists_begins_of_isName (hnames' f hf) _

/-- A text tells where its first literal ends and which one this is. -/
theorem Plain.told (hl : Plain l) (hl' : Plain l') : Told render l l' := by
  induction hl generalizing l' with
  | number n =>
    intro r s hr hs h
    obtain ⟨hfront, hbody⟩ := (Plain.number n).front_eq hl' hr hs h
    cases hl' with
    | number m =>
      obtain rfl := toDigits_injective hfront
      exact ⟨rfl, hbody⟩
    | word hw => exact absurd hfront (toDigits_ne_name n hw)
    | list _ => exact absurd hbody (Opened.ne (.bracket _) hr)
    | tuple _ _ => exact absurd hbody (Opened.ne (.parenthesis _) hr)
    | record _ _ _ => exact absurd hbody (Opened.ne (.brace _) hr)
  | word hw =>
    intro r s hr hs h
    obtain ⟨hfront, hbody⟩ := (Plain.word hw).front_eq hl' hr hs h
    cases hl' with
    | number m => exact absurd hfront.symm (toDigits_ne_name m hw)
    | word _ => exact ⟨congrArg Literal.word (String.toList_inj.mp hfront), hbody⟩
    | list _ => exact absurd hbody (Opened.ne (.bracket _) hr)
    | tuple _ _ => exact absurd hbody (Opened.ne (.parenthesis _) hr)
    | record _ _ _ => exact absurd hbody (Opened.ne (.brace _) hr)
  | @list items hitems ih =>
    intro r s hr hs h
    obtain ⟨-, hbody⟩ := (Plain.list hitems).front_eq hl' hr hs h
    cases hl' with
    | number _ | word _ => exact absurd hbody.symm (Opened.ne (.bracket _) hs)
    | list hitems' =>
      simp only [body, List.cons_append, List.cons.injEq, true_and, List.append_assoc] at hbody
      obtain ⟨rfl, hrs⟩ := items_unique .bracket hitems hitems' ih hbody
      exact ⟨rfl, hrs⟩
    | tuple _ _ | record _ _ _ => simp [body] at hbody
  | @tuple name items hname hitems ih =>
    intro r s hr hs h
    obtain ⟨hfront, hbody⟩ := (Plain.tuple hname hitems).front_eq hl' hr hs h
    cases hl' with
    | number _ | word _ => exact absurd hbody.symm (Opened.ne (.parenthesis _) hs)
    | tuple _ hitems' =>
      obtain rfl := String.toList_inj.mp hfront
      simp only [body, List.cons_append, List.cons.injEq, true_and, List.append_assoc] at hbody
      obtain ⟨rfl, hrs⟩ := items_unique .parenthesis hitems hitems' ih hbody
      exact ⟨rfl, hrs⟩
    | list _ | record _ _ _ => simp [body] at hbody
  | @record name fields hname hnames hvalues ih =>
    intro r s hr hs h
    obtain ⟨hfront, hbody⟩ := (Plain.record hname hnames hvalues).front_eq hl' hr hs h
    cases hl' with
    | number _ | word _ => exact absurd hbody.symm (Opened.ne (.brace _) hs)
    | list _ | tuple _ _ => simp [body] at hbody
    | record _ hnames' hvalues' =>
      obtain rfl := String.toList_inj.mp hfront
      simp only [body, List.cons_append, List.cons.injEq, true_and, List.append_assoc] at hbody
      obtain ⟨rfl, hrs⟩ := fields_unique .brace hnames hnames' (fun f hf g hg => ih f hf (hvalues' g hg)) hbody
      exact ⟨rfl, hrs⟩

theorem Plain.eq_of_render (hl : Plain l) (hl' : Plain l') (h : l.render = l'.render) : l = l' :=
  (hl.told hl' [] [] .nil .nil (by rw [h])).1

end Literal

end AhoCorasick
