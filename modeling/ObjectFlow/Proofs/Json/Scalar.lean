import Mathlib.Data.List.TakeDrop
import Mathlib.Data.List.TakeWhile
import ObjectFlow.Json.Parser
import ObjectFlow.Json.Printer

/-!
# Texts and numbers are read as they are written

The scanner takes a written text, with all its escapes, back to its characters, and the digits
of a written integer back to the integer.  A number ends where no character follows that could
continue it.
-/

namespace ObjectFlow.Json.Token

section Texts

/-- The four digits in the escape of a control character spell its code. -/
theorem codeUnit?_hexChar {code : Nat} (h : code < 0x20) :
    codeUnit? '0' '0' (hexChar (code / 16)) (hexChar (code % 16)) = some code := by
  revert code
  decide

/-- The code of a control character is that of no surrogate. -/
theorem pushUnit_of_lt (chars : List Char) {code : Nat} (h : code < 0x20) :
    Draft.pushUnit ⟨some chars, none⟩ code = ⟨some (Char.ofNat code :: chars), none⟩ := by
  have hlow : isLowSurrogate code = false := by simp [isLowSurrogate]; omega
  have hhigh : isHighSurrogate code = false := by simp [isHighSurrogate]; omega
  simp [Draft.pushUnit, hlow, hhigh, Draft.push]

/-- A character that needs no escape stands for itself. -/
theorem scanText_plain {c : Char} (hquote : c ≠ '"') (hslash : c ≠ '\\') (hplain : ¬ c.toNat < 0x20)
    (draft : Draft) (rest : List Char) :
    scanText draft (c :: rest) = scanText (draft.push c) rest := by
  rw [scanText.eq_def]
  split
  · next heq => cases heq
  · next heq => exact absurd (List.cons.inj heq).1 hquote
  · next heq => exact absurd (List.cons.inj heq).1 hslash
  · next heq => exact absurd (List.cons.inj heq).1 hslash
  · next heq =>
    cases heq
    simp [hplain, hslash]

/-- What stands for a character inside a text is read as that character. -/
theorem scanText_escapeChar (c : Char) (chars rest : List Char) :
    scanText ⟨some chars, none⟩ (escapeChar c ++ rest) =
      scanText ⟨some (c :: chars), none⟩ rest := by
  by_cases hshort : c = '"' ∨ c = '\\' ∨ c = '\x08' ∨ c = '\x0c' ∨ c = '\n' ∨ c = '\r' ∨ c = '\t'
  · rcases hshort with rfl | rfl | rfl | rfl | rfl | rfl | rfl <;> rfl
  · simp only [not_or] at hshort
    obtain ⟨hquote, hslash, hback, hfeed, hline, hreturn, htab⟩ := hshort
    simp only [escapeChar, beq_iff_eq, hquote, hslash, hback, hfeed, hline, hreturn, htab, if_false]
    split
    · next hcontrol =>
      have hcode := codeUnit?_hexChar hcontrol
      simp only [List.cons_append, List.nil_append, scanText, hcode,
        pushUnit_of_lt chars hcontrol, Char.ofNat_toNat]
    · next hplain => exact scanText_plain hquote hslash hplain _ rest

theorem scanText_flatMap_escapeChar (content chars rest : List Char) :
    scanText ⟨some chars, none⟩ (content.flatMap escapeChar ++ '"' :: rest) =
      some (some (String.ofList (chars.reverse ++ content)), rest) := by
  induction content generalizing chars with
  | nil => simp [scanText, Draft.finish]
  | cons c content ih =>
    rw [List.flatMap_cons, List.append_assoc, scanText_escapeChar, ih]
    simp

/-- A written text is one token. -/
theorem scanOne_quote (content : String) (rest : List Char) :
    scanOne (quote (some content) ++ rest) = some (.text (some content), rest) := by
  have hscan := scanText_flatMap_escapeChar content.toList [] rest
  simp only [quote, Option.getD_some, List.cons_append, List.append_assoc, List.nil_append, scanOne]
  have hdraft : ({} : Draft) = ⟨some [], none⟩ := rfl
  rw [hdraft, hscan]
  simp

end Texts

section Numbers

/-- The characters that may follow a value. -/
def delimits (c : Char) : Bool := isBlank c || c == ',' || c == ']' || c == '\x7d'

/-- Nothing follows that could continue a number. -/
def Delimited (chars : List Char) : Prop := ∀ c, chars.head? = some c → delimits c = true

theorem delimited_nil : Delimited [] := by
  intro c hc
  cases hc

theorem delimited_cons {c : Char} (h : delimits c = true) (rest : List Char) :
    Delimited (c :: rest) := by
  intro d hd
  cases hd
  exact h

theorem delimits_cases {c : Char} (h : delimits c = true) :
    c = ' ' ∨ c = '\t' ∨ c = '\n' ∨ c = '\r' ∨ c = ',' ∨ c = ']' ∨ c = '\x7d' := by
  simpa [delimits, isBlank, or_assoc] using h

variable {rest : List Char}

/-- Before a delimiter there are no more digits, no fraction and no exponent. -/
theorem Delimited.scan (h : Delimited rest) :
    rest.span isDigit = ([], rest) ∧ scanFraction rest = some ([], rest) ∧
      scanExponent rest = some ([], rest) := by
  cases rest with
  | nil => exact ⟨rfl, rfl, rfl⟩
  | cons c rest =>
    rcases delimits_cases (h c rfl) with rfl | rfl | rfl | rfl | rfl | rfl | rfl <;>
      exact ⟨rfl, rfl, rfl⟩

theorem isDigit_of_mem_toDigits {n : Nat} {c : Char} (h : c ∈ Nat.toDigits 10 n) :
    isDigit c = true :=
  Nat.isDigit_of_mem_toDigits (by omega) (by omega) h

/-- Digits up to a delimiter are taken as a whole. -/
theorem span_isDigit (h : Delimited rest) {digits : List Char}
    (hdigits : ∀ c ∈ digits, isDigit c = true) :
    (digits ++ rest).span isDigit = (digits, rest) := by
  obtain ⟨hspan, -⟩ := h.scan
  rw [List.span_eq_takeWhile_dropWhile, Prod.mk.injEq] at hspan ⊢
  rw [List.takeWhile_append_of_pos hdigits, List.dropWhile_append_of_pos hdigits, hspan.1, hspan.2]
  simp

theorem digitsValue_toDigits (n : Nat) : digitsValue (Nat.toDigits 10 n) = n := by
  have hvalue := @Nat.ofDigitChars_toDigits 10 n (by omega) (by omega)
  have hfold : (fun value (c : Char) => value * 10 + (c.toNat - '0'.toNat)) =
      fun value c => 10 * value + (c.toNat - '0'.toNat) := by
    funext value c
    rw [Nat.mul_comm]
  rw [digitsValue, hfold]
  exact hvalue

theorem digitChar_ne_zero : ∀ n < 10, 0 < n → n.digitChar ≠ '0' := by decide

/-- The digits of a positive number start with no zero. -/
theorem exists_toDigits_cons {n : Nat} (h : 0 < n) :
    ∃ c digits, Nat.toDigits 10 n = c :: digits ∧ c ≠ '0' := by
  induction n using Nat.strongRecOn with
  | ind n ih =>
    by_cases hn : n < 10
    · exact ⟨n.digitChar, [], Nat.toDigits_of_lt_base hn, digitChar_ne_zero n hn h⟩
    · obtain ⟨c, digits, hdigits, hc⟩ := ih (n / 10) (by omega) (by omega)
      refine ⟨c, digits ++ [(n % 10).digitChar], ?_, hc⟩
      rw [Nat.toDigits_of_base_le (by omega) (by omega), hdigits, List.cons_append]

theorem scanWhole_toDigits (n : Nat) (h : Delimited rest) :
    scanWhole (Nat.toDigits 10 n ++ rest) = some (Nat.toDigits 10 n, rest) := by
  rcases Nat.eq_zero_or_pos n with rfl | hn
  · rfl
  · have hspan := span_isDigit h fun c hc => @isDigit_of_mem_toDigits n c hc
    obtain ⟨c, digits, hdigits, hc⟩ := exists_toDigits_cons hn
    rw [hdigits, List.cons_append] at hspan ⊢
    unfold scanWhole
    split
    · next heq => exact absurd (List.cons.inj heq).1 hc
    · rw [hspan]

/-- The digits of a number, up to a delimiter, are read as that number. -/
theorem scanNumber_toDigits {negative : Bool} {n : Nat} (hn : negative = true → n ≠ 0)
    (h : Delimited rest) :
    scanNumber negative (Nat.toDigits 10 n ++ rest) =
      some (.integer (if negative then -n else n), rest) := by
  obtain ⟨-, hfraction, hexponent⟩ := h.scan
  simpa [scanNumber, scanWhole_toDigits n h, hfraction, hexponent, digitsValue_toDigits] using hn

/-- A digit starts a number. -/
theorem scanOne_of_isDigit {c : Char} (h : isDigit c = true) (rest : List Char) :
    scanOne (c :: rest) =
      (scanNumber false (c :: rest)).map fun (value, rest) => (.scalar value, rest) := by
  have hne : ∀ d, isDigit d = false → c ≠ d := by
    rintro d hd rfl
    rw [h] at hd
    cases hd
  rw [scanOne.eq_def]
  split
  case h_13 => rfl
  all_goals
    next heq =>
      first
      | cases heq; done
      | exact absurd (List.cons.inj heq).1 (hne _ rfl)

/-- A written integer is one token. -/
theorem scanOne_integer (value : Int) (h : Delimited rest) :
    scanOne ((toString value).toList ++ rest) = some (.scalar (.integer value), rest) := by
  cases value with
  | ofNat n =>
    have hdigits : (toString (Int.ofNat n)).toList = Nat.toDigits 10 n := Nat.toList_repr
    rw [hdigits]
    obtain ⟨c, digits, hcons⟩ := List.exists_cons_of_ne_nil (@Nat.toDigits_ne_nil n 10)
    have hc : isDigit c = true := @isDigit_of_mem_toDigits n c (by simp [hcons])
    have hscan := @scanNumber_toDigits rest false n (by simp) h
    rw [hcons, List.cons_append] at hscan ⊢
    rw [scanOne_of_isDigit hc, hscan]
    rfl
  | negSucc n =>
    have hdigits : (toString (Int.negSucc n)).toList = '-' :: Nat.toDigits 10 (n + 1) := by
      rw [Int.toString_eq_repr, Int.repr, String.toList_append, Nat.toList_repr]
      rfl
    have hscan := @scanNumber_toDigits rest true (n + 1) (by simp) h
    rw [hdigits, List.cons_append]
    simp only [scanOne, hscan]
    rfl

end Numbers

end ObjectFlow.Json.Token
