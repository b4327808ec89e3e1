import Cs214.Tokenizer.Progress

/-!
# How a number starts

A DEC or FLOAT token starts with a digit or a decimal point: the tokenizer gives a sign a token
of its own.
-/

namespace Cs214.Tokenizer

variable {v : Variant} {token rest w x : CString} {t : TokenT} {tk tk' : TokenizerT}

/-- A character that starts a number. -/
def startsNumber (c : Char) : Bool := isdigit c || c == '.'

/-- The start of a number is neither space nor sign. -/
theorem not_space_of_startsNumber {c : Char} (h : startsNumber c = true) :
    isspace c = false ∧ c ≠ '-' := by
  rw [startsNumber, Bool.or_eq_true, isdigit_iff, beq_iff_eq] at h
  rcases h with ⟨hlo, hhi⟩ | rfl
  · refine ⟨Bool.eq_false_iff.mpr fun hspace => ?_, ?_⟩
    · rw [isspace_iff] at hspace
      omega
    · rintro rfl
      exact absurd hlo (by decide)
  · exact ⟨by decide, by decide⟩

/-- The first character of a string is one that starts a number. -/
def NumberStart (w : CString) : Prop := ∃ c rest, w = c :: rest ∧ startsNumber c = true

private theorem NumberStart.append (h : NumberStart w) (x : CString) : NumberStart (w ++ x) := by
  obtain ⟨c, rest, rfl, hc⟩ := h
  exact ⟨c, rest ++ x, rfl, hc⟩

private theorem numberStart_of_digits (h : w ∈ digits) : NumberStart w := by
  obtain ⟨_, ⟨c, rfl, hc⟩, u, -, rfl⟩ := Language.mem_mul.mp h
  exact ⟨c, u, rfl, by simp [startsNumber, hc]⟩

private theorem numberStart_of_pointed (h : w ∈ pointed) : NumberStart w := by
  rcases (Language.mem_add _ _ _).mp h with h | h
  · obtain ⟨x, hx, u, -, rfl⟩ := Language.mem_mul.mp h
    obtain ⟨d, hd, p, -, rfl⟩ := Language.mem_mul.mp hx
    exact ((numberStart_of_digits hd).append p).append u
  · obtain ⟨p, hp, u, -, rfl⟩ := Language.mem_mul.mp h
    obtain ⟨c, rfl, hc⟩ : p ∈ letter (· == '.') := hp
    exact ⟨c, u, rfl, by simp [startsNumber, beq_iff_eq.mp hc]⟩

/-- **A number starts with a digit or a point.** -/
theorem Numeral.numberStart (h : Numeral t w rest) (ht : t = .float ∨ t = .dec) :
    NumberStart w := by
  cases h with
  | octal | hex | malHex | malExp => rcases ht with ht | ht <;> cases ht
  | dec h => exact numberStart_of_digits h.1
  | float h =>
    rcases (Language.mem_add _ _ _).mp h with h | h
    · obtain ⟨d, hd, x, -, rfl⟩ := Language.mem_mul.mp h
      exact (numberStart_of_pointed hd).append x
    · obtain ⟨d, hd, x, -, rfl⟩ := Language.mem_mul.mp h
      exact (numberStart_of_digits hd).append x

/-- The string of a number that `TKGetNextToken` gives starts with a digit or a point. -/
theorem tkGetNextToken_number (hv : v.wordPart nul = false)
    (hcontrol : ∀ t ∈ v.control, ¬(t = .float ∨ t = .dec))
    (h : tkGetNextToken v tk = some (tk', some token))
    (htype : tkGetType tk' = .float ∨ tkGetType tk' = .dec) : NumberStart token := by
  have hcall := tkGetNextToken_call hv tk
  rw [h] at hcall
  cases hcall with
  | @token t w rest _ _ _ _ hlexeme =>
    change t = .float ∨ t = .dec at htype
    cases hlexeme with
    | word | ope => rcases htype with htype | htype <;> cases htype
    | number h => exact h.numberStart htype
    | control ht => exact absurd htype (hcontrol t ht)

end Cs214.Tokenizer
