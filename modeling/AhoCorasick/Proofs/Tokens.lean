import AhoCorasick.Json.Reader
import AhoCorasick.Json.Writer
import Mathlib

/-!
# Numbers and strings read back

An integer is written with its digits and no zero in front, so its digits are all that is read, if nothing that
could go on with them comes behind (`Ended`), and they stand for the same number (`number_writeInt`). A string is
written character by character, and each of them is read as itself, with a backslash or without
(`stringRest_flatMap_writeChar`).
-/

namespace AhoCorasick

namespace Json

open Reader

variable {cs rest read : List Char} {c : Char} {n : Nat}

/-! ## Digits -/

/-- A text that does not go on with what could belong to a number. -/
def Ended (rest : List Char) : Prop :=
  ∀ c ∈ rest.head?, c.isDigit = false ∧ c ≠ '.' ∧ c ≠ 'e' ∧ c ≠ 'E'

theorem ended_nil : Ended [] := fun c hc => by cases hc

theorem ended_cons (hc : c.isDigit = false ∧ c ≠ '.' ∧ c ≠ 'e' ∧ c ≠ 'E') (rest : List Char) :
    Ended (c :: rest) := by
  rintro d hd
  obtain rfl := Option.some.inj hd
  exact hc

theorem isDigit_of_mem_writeNat (hc : c ∈ writeNat n) : c.isDigit = true :=
  Nat.isDigit_of_mem_toDigits (by decide) (by decide) hc

theorem exists_writeNat_eq_cons (n : Nat) : ∃ c cs, writeNat n = c :: cs ∧ c.isDigit = true := by
  obtain ⟨c, cs, hcs⟩ := List.exists_cons_of_ne_nil (Nat.toDigits_ne_nil (n := n) (b := 10))
  refine ⟨c, cs, hcs, isDigit_of_mem_writeNat (n := n) ?_⟩
  rw [writeNat, hcs]
  exact List.mem_cons_self

theorem span_digits (hcs : ∀ c ∈ cs, c.isDigit = true) (hrest : Ended rest) :
    (cs ++ rest).span Char.isDigit = (cs, rest) := by
  have hstop : rest.takeWhile Char.isDigit = [] ∧ rest.dropWhile Char.isDigit = rest := by
    cases rest with
    | nil => exact ⟨rfl, rfl⟩
    | cons c rest => simp [(hrest c rfl).1]
  rw [List.span_eq_takeWhile_dropWhile, List.takeWhile_append_of_pos hcs, List.dropWhile_append_of_pos hcs,
    hstop.1, hstop.2, List.append_nil]

theorem digitChar_ne_zero : ∀ n < 10, 0 < n → Nat.digitChar n ≠ '0' := by decide

theorem head?_writeNat_ne_zero (hn : 0 < n) : (writeNat n).head? ≠ some '0' := by
  induction n using Nat.strongRecOn with
  | ind n ih =>
    rcases Nat.lt_or_ge n 10 with hlt | hge
    · rw [writeNat, Nat.toDigits_of_lt_base hlt]
      simpa using digitChar_ne_zero n hlt hn
    · rw [writeNat, Nat.toDigits_of_base_le (by decide) hge,
        List.head?_append_of_ne_nil _ Nat.toDigits_ne_nil]
      exact ih (n / 10) (by omega) (by omega)

theorem writeNat_ne_zero_cons (n : Nat) (c : Char) (cs : List Char) : writeNat n ≠ '0' :: c :: cs := by
  intro h
  rcases Nat.eq_zero_or_pos n with rfl | hn
  · cases h
  · exact head?_writeNat_ne_zero hn (by rw [h]; rfl)

theorem valueOfDigits_writeNat (n : Nat) : valueOfDigits (writeNat n) = n :=
  Nat.ofDigitChars_toDigits (by decide) (by decide)

/-! ## Integers -/

theorem fraction_of_ended (h : Ended rest) : fraction rest = some (none, rest) := by
  cases rest with
  | nil => rfl
  | cons c rest =>
    unfold fraction
    split
    · next heq => exact absurd (List.cons.inj heq).1 (h c rfl).2.1
    · rfl

theorem exponent_of_ended (h : Ended rest) : exponent rest = some (none, rest) := by
  cases rest with
  | nil => rfl
  | cons c rest =>
    obtain ⟨-, -, he, hE⟩ := h c rfl
    have hletter : (c == 'e' || c == 'E') = false := by simp [he, hE]
    simp only [exponent, hletter, Bool.false_eq_true, if_false]

theorem magnitude_writeNat (negative : Bool)
    (hfits : if negative then 0 < n ∧ n ≤ wordCount / 2 else n < wordCount) (h : Ended rest) :
    magnitude negative (writeNat n ++ rest) = some (.integer (if negative then -n else n), rest) := by
  rw [magnitude, span_digits (fun c hc => isDigit_of_mem_writeNat hc) h]
  split
  · next heq => exact absurd (Prod.mk.inj heq).1 Nat.toDigits_ne_nil
  · next heq => exact absurd (Prod.mk.inj heq).1 (writeNat_ne_zero_cons n _ _)
  · next heq =>
    obtain ⟨rfl, rfl⟩ := Prod.mk.inj heq
    simp only [fraction_of_ended h, exponent_of_ended h, valueOfDigits_writeNat]
    cases negative
    · simpa using hfits
    · simpa using hfits

theorem number_cons (hc : c ≠ '-') (cs : List Char) : number (c :: cs) = magnitude false (c :: cs) := by
  unfold number
  split
  · next heq => exact absurd (List.cons.inj heq).1 hc
  · rfl

theorem number_writeInt {n : Int} (hmin : -(wordCount / 2 : Nat) ≤ n) (hmax : n < wordCount) (h : Ended rest) :
    number (writeInt n ++ rest) = some (.integer n, rest) := by
  cases n with
  | negSucc n =>
    have hfits : 0 < n + 1 ∧ n + 1 ≤ wordCount / 2 := by omega
    exact magnitude_writeNat true hfits h
  | ofNat n =>
    have hfits : n < wordCount := Int.ofNat_lt.mp hmax
    obtain ⟨c, cs, hcs, hdigit⟩ := exists_writeNat_eq_cons n
    have hc : c ≠ '-' := by
      rintro rfl
      exact absurd hdigit (by decide)
    have hread := magnitude_writeNat (n := n) false hfits h
    rw [hcs] at hread
    rw [writeInt, hcs]
    exact (number_cons hc _).trans hread

/-! ## Strings -/

theorem codeUnit?_digitChar :
    ∀ n < 32, codeUnit? '0' '0' (Nat.digitChar (n / 16)) (Nat.digitChar (n % 16)) = some n := by decide

/-- A control character is written by its code point, which is no half of a pair. -/
theorem stringRest_control (hc : c < ' ') (read rest : List Char) :
    stringRest none read
        (['\\', 'u', '0', '0', Nat.digitChar (c.toNat / 16), Nat.digitChar (c.toNat % 16)] ++ rest) =
      stringRest none (c :: read) rest := by
  have hcode : c.toNat < 32 := by
    simpa [Char.lt_def, UInt32.lt_iff_toNat_lt] using hc
  have hfirst : ¬(0xd800 ≤ c.toNat ∧ c.toNat < 0xdc00) := by omega
  have hsecond : ¬(0xdc00 ≤ c.toNat ∧ c.toNat < 0xe000) := by omega
  simp only [List.cons_append, List.nil_append]
  conv_lhs => unfold stringRest
  simp only [codeUnit?_digitChar c.toNat hcode, if_neg hfirst, if_neg hsecond, Char.ofNat_toNat]

theorem stringRest_writeChar (c : Char) (read rest : List Char) :
    stringRest none read (writeChar c ++ rest) = stringRest none (c :: read) rest := by
  unfold writeChar
  split
  · rfl
  · rfl
  · rfl
  · rfl
  · rfl
  · rfl
  · rfl
  · next hquote hbackslash _ _ _ _ _ =>
    split_ifs with hcontrol
    · exact stringRest_control hcontrol read rest
    · rw [List.singleton_append]
      conv_lhs => unfold stringRest
      split
      · next heq => exact absurd (List.cons.inj heq).1 hbackslash
      · next heq => exact absurd (List.cons.inj heq).1 hbackslash
      · next heq => exact absurd (List.cons.inj heq).1 hquote
      · next heq =>
        obtain ⟨rfl, rfl⟩ := List.cons.inj heq
        exact if_pos ⟨rfl, Char.not_lt.mp hcontrol⟩
      · next heq => cases heq

theorem stringRest_flatMap_writeChar (cs read rest : List Char) :
    stringRest none read (cs.flatMap writeChar ++ '"' :: rest) = some (String.ofList (read.reverse ++ cs), rest) := by
  induction cs generalizing read with
  | nil => simp [stringRest]
  | cons c cs ih =>
    rw [List.flatMap_cons, List.append_assoc, stringRest_writeChar, ih, List.reverse_cons, List.append_assoc,
      List.singleton_append]

end Json

end AhoCorasick
