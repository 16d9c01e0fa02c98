import AhoCorasick.Proofs.Tokens

/-!
# What is written is read

A reader `Reads` a text if it gives the text's value and whatever comes behind it. Readers of a list read the texts
of its items with commas between them (`items_reads`), and so, from the inside to the outside, the text of every
value without a float is read (`reads_value`). What is read is the value itself, with the fields of its objects by
ascending name (`read?_write`).
-/

namespace AhoCorasick

namespace Json

open Reader

mutual

/-- Every number in a value is an integer of 64 bits, signed or unsigned. -/
def Whole : Json → Prop
  | .integer n => -(wordCount / 2 : Nat) ≤ n ∧ n < wordCount
  | .float _ => False
  | .array items => WholeItems items
  | .object fields => WholeFields fields
  | .null | .bool _ | .string _ => True

def WholeItems : List Json → Prop
  | [] => True
  | v :: vs => Whole v ∧ WholeItems vs

def WholeFields : List (String × Json) → Prop
  | [] => True
  | (_, v) :: fields => Whole v ∧ WholeFields fields

end

mutual

/-- A value with the fields of its objects by ascending name, of each name the last one. -/
def normal : Json → Json
  | .array items => .array (normalItems items)
  | .object fields => .ofFields (normalFields fields)
  | v => v

def normalItems : List Json → List Json
  | [] => []
  | v :: vs => normal v :: normalItems vs

def normalFields : List (String × Json) → List (String × Json)
  | [] => []
  | (name, v) :: fields => (name, normal v) :: normalFields fields

end

/-! ## Texts with something behind them -/

variable {α : Type} {r item : Reader α} {text rest : List Char} {texts : List (List Char)} {a : α}
  {values read : List α} {close c : Char} {bound : Nat}

/-- A reader gives the value of a text, which does not begin like a blank or the end of a list. -/
structure Reads (r : Reader α) (text : List Char) (a : α) : Prop where
  head : ∃ c cs, text = c :: cs ∧ isBlank c = false ∧ c ≠ ']' ∧ c ≠ '\x7d'
  eq_some : ∀ rest, Ended rest → r (text ++ rest) = some (a, rest)

theorem Reads.ne_nil (h : Reads r text a) : text ≠ [] := by
  obtain ⟨c, cs, rfl, -⟩ := h.head
  exact List.cons_ne_nil c cs

theorem skipBlanks_cons (hc : isBlank c = false) (rest : List Char) : skipBlanks (c :: rest) = c :: rest := by
  rw [skipBlanks, List.dropWhile_cons_of_neg (by simp [hc])]

/-! ## Lists -/

/-- Texts with commas between them. -/
def joined (texts : List (List Char)) : List Char := (texts.intersperse [',']).flatten

theorem joined_singleton (text : List Char) : joined [text] = text := by simp [joined]

theorem joined_cons_cons (text text' : List Char) (texts : List (List Char)) :
    joined (text :: text' :: texts) = text ++ ',' :: joined (text' :: texts) := by
  simp [joined]

theorem prefix_joined (text : List Char) (texts : List (List Char)) : text <+: joined (text :: texts) := by
  cases texts with
  | nil => rw [joined_singleton]
  | cons text' texts =>
    rw [joined_cons_cons]
    exact List.prefix_append _ _

theorem length_le_joined (htext : text ∈ texts) : text.length ≤ (joined texts).length := by
  induction texts with
  | nil => cases htext
  | cons first texts ih =>
    cases texts with
    | nil => rw [joined_singleton, List.mem_singleton.mp htext]
    | cons second texts =>
      rw [joined_cons_cons, List.length_append, List.length_cons]
      rcases List.mem_cons.mp htext with rfl | htext
      · omega
      · have := ih htext
        omega

/-- No text that is read is empty, so there are no more of them than characters. -/
theorem length_texts_le (h : List.Forall₂ (Reads r) texts values) : texts.length ≤ (joined texts).length := by
  induction h with
  | nil => exact Nat.zero_le _
  | @cons text a texts values htext hrest ih =>
    have hpos := List.length_pos_iff.mpr htext.ne_nil
    cases hrest with
    | nil =>
      rw [joined_singleton]
      exact hpos
    | cons =>
      rw [joined_cons_cons, List.length_append, List.length_cons (a := ','), List.length_cons]
      omega

/-- The characters that can end a list. -/
def Closing (close : Char) : Prop := close = ']' ∨ close = '\x7d'

theorem Closing.ended (h : Closing close) (rest : List Char) : Ended (close :: rest) := by
  rcases h with rfl | rfl <;> exact ended_cons (by decide) rest

theorem separated_comma (hitem : Reads item text a) (bound : Nat) (read : List α) (rest : List Char) :
    separated item close (bound + 1) read (text ++ ',' :: rest) = separated item close bound (a :: read) rest := by
  have hended : Ended (',' :: rest) := ended_cons (by decide) rest
  simp only [separated, hitem.eq_some _ hended, skipBlanks_cons (c := ',') rfl]

theorem separated_close (hclose : Closing close) (hitem : Reads item text a) (bound : Nat) (read : List α)
    (rest : List Char) :
    separated item close (bound + 1) read (text ++ close :: rest) = some (read.reverse ++ [a], rest) := by
  simp only [separated, hitem.eq_some _ (hclose.ended rest)]
  rcases hclose with rfl | rfl
  · simp [skipBlanks_cons (c := ']') rfl]
  · simp [skipBlanks_cons (c := '\x7d') rfl]

theorem separated_reads (hclose : Closing close) (hitems : List.Forall₂ (Reads item) texts values)
    (hne : texts ≠ []) (hbound : texts.length ≤ bound) (read : List α) (rest : List Char) :
    separated item close bound read (joined texts ++ close :: rest) = some (read.reverse ++ values, rest) := by
  induction hitems generalizing bound read with
  | nil => exact absurd rfl hne
  | @cons text a texts values hitem hitems ih =>
    rw [List.length_cons] at hbound
    obtain ⟨bound, rfl⟩ : ∃ n, bound = n + 1 := ⟨bound - 1, by omega⟩
    cases hitems with
    | nil => rw [joined_singleton, separated_close hclose hitem]
    | @cons text' a' texts values hitem' hitems =>
      rw [joined_cons_cons, List.append_assoc, List.cons_append, separated_comma hitem,
        ih (List.cons_ne_nil _ _) (by omega), List.reverse_cons, List.append_assoc, List.singleton_append]

theorem items_reads (hclose : Closing close) (hitems : List.Forall₂ (Reads item) texts values)
    (hbound : texts.length ≤ bound) (rest : List Char) :
    items item close bound (joined texts ++ close :: rest) = some (values, rest) := by
  cases hitems with
  | nil =>
    have hblank : isBlank close = false := by rcases hclose with rfl | rfl <;> rfl
    have hempty : joined [] ++ close :: rest = close :: rest := rfl
    simp only [items, hempty, skipBlanks_cons hblank, if_pos]
  | @cons text a texts values hitem hitems =>
    obtain ⟨more, hmore⟩ := prefix_joined text texts
    obtain ⟨c, cs, htext, hblank, hbracket, hbrace⟩ := hitem.head
    have hc : c ≠ close := by rcases hclose with rfl | rfl <;> assumption
    have hread := separated_reads hclose (.cons hitem hitems) (List.cons_ne_nil _ _) hbound [] rest
    rw [← hmore, htext, List.cons_append, List.cons_append] at hread ⊢
    simp only [items, skipBlanks_cons hblank, if_neg hc]
    exact hread

/-! ## Values -/

/-- The characters with which an integer begins. -/
def startsInteger (c : Char) : Bool := c == '-' || c.isDigit

theorem head_writeInt (n : Int) : ∃ c cs, writeInt n = c :: cs ∧ startsInteger c = true := by
  cases n with
  | negSucc n => exact ⟨'-', _, rfl, rfl⟩
  | ofNat n =>
    obtain ⟨c, cs, hcs, hdigit⟩ := exists_writeNat_eq_cons n
    exact ⟨c, cs, hcs, by rw [startsInteger, hdigit, Bool.or_true]⟩

theorem ne_of_startsInteger {d : Char} (hc : startsInteger c = true) (hd : startsInteger d = false) : c ≠ d := by
  rintro rfl
  rw [hc] at hd
  cases hd

theorem isBlank_of_startsInteger (hc : startsInteger c = true) : isBlank c = false := by
  have hspace := ne_of_startsInteger (d := ' ') hc rfl
  have htab := ne_of_startsInteger (d := '\t') hc rfl
  have hline := ne_of_startsInteger (d := '\n') hc rfl
  have hreturn := ne_of_startsInteger (d := '\r') hc rfl
  simp [isBlank, hspace, htab, hline, hreturn]

theorem value_of_startsInteger (hc : startsInteger c = true) (bound : Nat) (cs : List Char) :
    value (bound + 1) (c :: cs) = number (c :: cs) := by
  have hother : ∀ {d : Char} {ds : List Char}, c :: cs = d :: ds → startsInteger d = true := fun heq =>
    (List.cons.inj heq).1 ▸ hc
  rw [value, skipBlanks_cons (isBlank_of_startsInteger hc)]
  split
  case h_7 => rfl
  all_goals
    next heq => cases hother heq

theorem reads_integer {n : Int} (hmin : -(wordCount / 2 : Nat) ≤ n) (hmax : n < wordCount) (bound : Nat) :
    Reads (value (bound + 1)) (writeInt n) (.integer n) := by
  obtain ⟨c, cs, hcs, hc⟩ := head_writeInt n
  refine ⟨⟨c, cs, hcs, isBlank_of_startsInteger hc, ne_of_startsInteger hc rfl, ne_of_startsInteger hc rfl⟩, ?_⟩
  intro rest hrest
  have hread := number_writeInt hmin hmax hrest
  rw [hcs] at hread ⊢
  exact (value_of_startsInteger hc bound _).trans hread

theorem reads_string (s : String) (bound : Nat) : Reads (value (bound + 1)) (writeString s) (.string s) := by
  refine ⟨⟨_, _, rfl, rfl, by decide, by decide⟩, fun rest _ => ?_⟩
  have hrest := stringRest_flatMap_writeChar s.toList [] rest
  simp only [writeString, List.cons_append, List.append_assoc, value, skipBlanks_cons (c := '"') rfl]
  simp [hrest]

theorem reads_field {v : Json} {r : Reader Json} (hv : Reads r text v) (name : String) :
    Reads (field r) (writeString name ++ ':' :: text) (name, v) := by
  refine ⟨⟨_, _, rfl, rfl, by decide, by decide⟩, fun rest hrest => ?_⟩
  have hname := stringRest_flatMap_writeChar name.toList [] (':' :: (text ++ rest))
  have hvalue := hv.eq_some rest hrest
  simp only [writeString, List.cons_append, List.append_assoc, List.nil_append, field,
    skipBlanks_cons (c := '"') rfl, Reader.string, hname, skipBlanks_cons (c := ':') rfl, hvalue]
  simp

theorem reads_array {vs : List Json} (hitems : List.Forall₂ (Reads (value bound)) texts vs)
    (hbound : texts.length ≤ bound) : Reads (value (bound + 1)) (bracketed '[' texts ']') (.array vs) := by
  refine ⟨⟨_, _, rfl, rfl, by decide, by decide⟩, fun rest _ => ?_⟩
  have hread := items_reads (Or.inl rfl) hitems hbound rest
  have htext : bracketed '[' texts ']' ++ rest = '[' :: (joined texts ++ ']' :: rest) := by
    simp [bracketed, joined]
  rw [htext]
  simp only [value, skipBlanks_cons (c := '[') rfl, hread, Option.map_some]

theorem reads_object {fields : List (String × Json)}
    (hfields : List.Forall₂ (Reads (field (value bound))) texts fields) (hbound : texts.length ≤ bound) :
    Reads (value (bound + 1)) (bracketed '\x7b' texts '\x7d') (.ofFields fields) := by
  refine ⟨⟨_, _, rfl, rfl, by decide, by decide⟩, fun rest _ => ?_⟩
  have hread := items_reads (Or.inr rfl) hfields hbound rest
  have htext : bracketed '\x7b' texts '\x7d' ++ rest = '\x7b' :: (joined texts ++ '\x7d' :: rest) := by
    simp [bracketed, joined]
  rw [htext]
  simp only [value, skipBlanks_cons (c := '\x7b') rfl, hread, Option.map_some]

theorem length_bracketed (opening close : Char) (texts : List (List Char)) :
    (bracketed opening texts close).length = (joined texts).length + 2 := by
  simp [bracketed, joined]

mutual

theorem reads_value (v : Json) (hv : Whole v) (bound : Nat) (hbound : (write v).length < bound) :
    Reads (value bound) (write v) (normal v) := by
  obtain ⟨bound, rfl⟩ : ∃ n, bound = n + 1 := ⟨bound - 1, by omega⟩
  cases v with
  | null => exact ⟨⟨_, _, rfl, rfl, by decide, by decide⟩, fun rest _ => rfl⟩
  | bool b => cases b <;> exact ⟨⟨_, _, rfl, rfl, by decide, by decide⟩, fun rest _ => rfl⟩
  | integer n => exact reads_integer hv.1 hv.2 bound
  | float x => exact hv.elim
  | string s => exact reads_string s bound
  | array items =>
    rw [write, length_bracketed] at hbound
    have hitems := reads_itemTexts items hv bound fun text htext => by
      have := length_le_joined htext
      omega
    have := length_texts_le hitems
    exact reads_array hitems (by omega)
  | object fields =>
    rw [write, length_bracketed] at hbound
    have hfields := reads_fieldTexts fields hv bound fun text htext => by
      have := length_le_joined htext
      omega
    have := length_texts_le hfields
    exact reads_object hfields (by omega)

theorem reads_itemTexts (vs : List Json) (hvs : WholeItems vs) (bound : Nat)
    (hbound : ∀ text ∈ writeItems vs, text.length < bound) :
    List.Forall₂ (Reads (value bound)) (writeItems vs) (normalItems vs) := by
  cases vs with
  | nil => exact .nil
  | cons v vs =>
    exact .cons (reads_value v hvs.1 bound (hbound _ List.mem_cons_self))
      (reads_itemTexts vs hvs.2 bound fun text htext => hbound text (List.mem_cons_of_mem _ htext))

theorem reads_fieldTexts (fields : List (String × Json)) (hfields : WholeFields fields) (bound : Nat)
    (hbound : ∀ text ∈ writeFields fields, text.length < bound) :
    List.Forall₂ (Reads (field (value bound))) (writeFields fields) (normalFields fields) := by
  cases fields with
  | nil => exact .nil
  | cons field fields =>
    obtain ⟨name, v⟩ := field
    refine .cons (reads_field (reads_value v hfields.1 bound ?_) name)
      (reads_fieldTexts fields hfields.2 bound fun text htext => hbound text (List.mem_cons_of_mem _ htext))
    have htext := hbound _ List.mem_cons_self
    rw [List.length_append, List.length_cons] at htext
    omega

end

/-- **What is written is read**, with the fields of objects by ascending name. -/
theorem read?_write {v : Json} (hv : Whole v) : read? (write v) = some (normal v) := by
  have hread := (reads_value v hv _ (Nat.lt_succ_self _)).eq_some [] ended_nil
  rw [List.append_nil] at hread
  simp [read?, hread, skipBlanks]

end Json

end AhoCorasick
