import Cs214.Library.CharClass
import Cs214.Tokenizer.Cursor

/-!
# Numbers

The languages of the number tokens, and that the functions which form numbers stay within them.
The functions call each other in the middle of a token, so `Reads d s r` speaks of the whole
token: with `d` taken before, what is taken from `s` on makes it a numeral of the type returned.
-/

namespace Cs214.Tokenizer

variable {d rest w x : CString} {s s₁ : Scan} {t : TokenT} {r : Option (TokenT × Scan)} {c : Char}

/-! ### The languages -/

def digits : Language Char := many1 isdigit

def point : Language Char := letter (· == '.')

/-- What stands in front of the digits of an exponent. -/
def expSign : Language Char :=
  letter (fun c => c == 'e' || c == 'E') * opt (letter fun c => c == '+' || c == '-')

def exponent : Language Char := expSign * digits

/-- Digits around a point. -/
def pointed : Language Char := digits * point * many isdigit + point * digits

/-- What may stand in front of an exponent. -/
def mantissa : Language Char := digits + pointed

/-- `0` and more octal digits. -/
def octal : Language Char := letter (· == '0') * many1 isodigit

/-- `0x` or `0X`. -/
def hexPrefix : Language Char := letter (· == '0') * letter fun c => c == 'x' || c == 'X'

def hex : Language Char := hexPrefix * many1 isxdigit

def float : Language Char := pointed * opt exponent + digits * exponent

/-- **The numerals of each type**, in front of `rest`. Those of type MAL lack a digit. -/
inductive Numeral : TokenT → CString → CString → Prop
  | octal {w rest : CString} (h : w ∈ octal) : Numeral .octal w rest
  | dec {w rest : CString} (h : w ∈ digits - Tokenizer.octal) : Numeral .dec w rest
  | hex {w rest : CString} (h : w ∈ hex) : Numeral .hex w rest
  | float {w rest : CString} (h : w ∈ float) : Numeral .float w rest
  | malHex {w rest : CString} (h : w ∈ hexPrefix) (hrest : isxdigit (deref rest) = false) :
      Numeral .mal w rest
  | malExp {w rest : CString} (h : w ∈ mantissa * expSign)
      (hrest : isdigit (deref rest) = false) : Numeral .mal w rest

theorem Numeral.ne_word (h : Numeral t w rest) : t ≠ .word := by
  cases h <;> decide

theorem mem_digits : w ∈ digits ↔ w ≠ [] ∧ ∀ c ∈ w, isdigit c = true := mem_many1

theorem mem_octal : w ∈ octal ↔ ∃ u, w = '0' :: u ∧ u ≠ [] ∧ ∀ c ∈ u, isodigit c = true := by
  rw [octal, Language.mem_mul]
  constructor
  · rintro ⟨_, ⟨c, rfl, hc⟩, u, hu, rfl⟩
    obtain rfl := beq_iff_eq.mp hc
    exact ⟨u, rfl, mem_many1.mp hu⟩
  · rintro ⟨u, rfl, hu⟩
    exact ⟨['0'], singleton_mem_letter (by decide), u, mem_many1.mpr hu, rfl⟩

/-- Octal digits are digits. -/
theorem isdigit_of_isodigit (h : isodigit c = true) : isdigit c = true := by
  simp only [isodigit, isdigit, Bool.and_eq_true, decide_eq_true_eq] at h ⊢
  exact ⟨h.1, Char.le_trans h.2 (by decide)⟩

/-- A number with an exponent is a floating number. -/
private theorem float_of_exponent (hd : d ∈ mantissa) (hx : x ∈ exponent) : d ++ x ∈ float := by
  rcases hd with hd | hd
  · exact .inr (Language.append_mem_mul hd hx)
  · exact .inl (Language.append_mem_mul hd (mem_opt_of_mem hx))

/-- And so is one with a point. -/
private theorem float_of_pointed (hd : d ∈ pointed) : d ∈ float := by
  have h := Language.append_mem_mul hd (nil_mem_opt exponent)
  rw [List.append_nil] at h
  exact .inl h

theorem expSign_of_letter (h : (c == 'e' || c == 'E') = true) : [c] ∈ expSign :=
  Language.append_mem_mul (a := [c]) ⟨c, rfl, h⟩ (nil_mem_opt _)

theorem expSign_of_sign {e : Char} (he : (e == 'e' || e == 'E') = true)
    (h : (c == '+' || c == '-') = true) : [e, c] ∈ expSign :=
  Language.append_mem_mul (a := [e]) ⟨e, rfl, he⟩ (mem_opt_of_mem ⟨c, rfl, h⟩)

/-! ### The functions -/

/-- **The rest of a number**: with `d` taken before, a piece of the string completes a
numeral. -/
def Reads (d : CString) (s : Scan) (r : Option (TokenT × Scan)) : Prop :=
  ∃ t s' w, r = some (t, s') ∧ s.Takes w s' ∧ w ≠ [] ∧ Numeral t (d ++ w) s'.curPos

private theorem Reads.of_takes (h : s.Takes w s₁) (hw : w ≠ [])
    (ht : Numeral t (d ++ w) s₁.curPos) :
    Reads d s (some (t, s₁)) := ⟨t, s₁, w, rfl, h, hw, ht⟩

/-- What a function reads behind a piece that was taken before its call. -/
private theorem Reads.trans (h : s.Takes w s₁) (hr : Reads (d ++ w) s₁ r) : Reads d s r := by
  obtain ⟨t, s', w', hr, htakes, hne, ht⟩ := hr
  exact ⟨t, s', w ++ w', hr, h.trans htakes, by simp [hne], by rwa [← List.append_assoc]⟩

/-- The letter that starts an exponent is a character. -/
private theorem ne_nul_of_exp (h : (c == 'e' || c == 'E') = true) : c ≠ nul :=
  ne_nul_of_mem (p := fun c => c == 'e' || c == 'E') (by decide) h

/-- **The exponent** of a number. -/
theorem formFloatWithExpToken_reads (hd : d ∈ mantissa)
    (h : (deref s.curPos == 'e' || deref s.curPos == 'E') = true) :
    Reads d s (formFloatWithExpToken s) := by
  obtain ⟨s₁, hs₁, h₁⟩ := addCurCharToToken_spec (ne_nul_of_exp h)
  simp only [formFloatWithExpToken, hs₁, Option.bind_eq_bind, Option.bind_some]
  split_ifs with hsign hdigit
  · have hne : deref s₁.curPos ≠ nul :=
      ne_nul_of_mem (p := fun c => c == '+' || c == '-') (by decide) hsign
    obtain ⟨s₂, hs₂, h₂⟩ := addCurCharToToken_spec hne
    have hexp := expSign_of_sign h hsign
    simp only [hs₂, Option.bind_some]
    split_ifs with hdigit
    · obtain ⟨s₃, hs₃, h₃⟩ := addCurCharToToken_spec (ne_nul_of_mem (by decide) hdigit)
      obtain ⟨w, s₄, hs₄, h₄, hall, -⟩ := addWhile_spec (p := isdigit) (by decide) s₃
      simp only [hs₃, hs₄, Option.bind_some]
      refine .of_takes ((h₁.trans h₂).trans (h₃.trans h₄)) (by simp) (.float ?_)
      exact float_of_exponent hd (Language.append_mem_mul hexp
        (mem_digits.mpr ⟨by simp, List.forall_mem_cons.mpr ⟨hdigit, hall⟩⟩))
    · exact .of_takes (h₁.trans h₂) (by simp)
        (.malExp (Language.append_mem_mul hd hexp) (by simpa using hdigit))
  · obtain ⟨w, s₂, hs₂, h₂, hall, hstop⟩ := addWhile_spec (p := isdigit) (by decide) s₁
    have hw := h₂.ne_nil_of_stop hdigit hstop
    simp only [hs₂, Option.bind_some]
    refine .of_takes (h₁.trans h₂) (by simp) (.float ?_)
    exact float_of_exponent hd (Language.append_mem_mul (expSign_of_letter h)
      (mem_digits.mpr ⟨hw, hall⟩))
  · exact .of_takes h₁ (by simp)
      (.malExp (Language.append_mem_mul hd (expSign_of_letter h)) (by simpa using hdigit))

/-- **A floating number** from its point, or from the digit behind a point that starts it. -/
theorem formFloatToken_reads (h : deref s.curPos ≠ nul)
    (hd : ∀ w ∈ many isdigit, d ++ deref s.curPos :: w ∈ pointed) :
    Reads d s (formFloatToken s) := by
  obtain ⟨s₁, hs₁, h₁⟩ := addCurCharToToken_spec h
  obtain ⟨w, s₂, hs₂, h₂, hall, -⟩ := addWhile_spec (p := isdigit) (by decide) s₁
  have hpointed := hd w (mem_many.mpr hall)
  simp only [formFloatToken, hs₁, hs₂, Option.bind_eq_bind, Option.bind_some]
  split_ifs with hexp
  · exact .trans (h₁.trans h₂) (formFloatWithExpToken_reads (.inr hpointed) hexp)
  · exact .of_takes (h₁.trans h₂) (by simp) (.float (float_of_pointed hpointed))

/-- Digits in front of a point. -/
private theorem pointed_of_digits (hd : d ∈ digits) (hc : c = '.') : ∀ w ∈ many isdigit,
    d ++ c :: w ∈ pointed := by
  rintro w hw
  have h := Language.append_mem_mul (Language.append_mem_mul hd
    (singleton_mem_letter (p := (· == '.')) (beq_iff_eq.mpr hc))) hw
  rw [List.append_assoc] at h
  exact .inl h

/-- **A decimal**, which may turn out to be a floating number. -/
theorem formDecimalToken_reads (hd : d ∈ many isdigit) (h : isdigit (deref s.curPos) = true)
    (hoctal : ∀ w, d ++ deref s.curPos :: w ∉ octal) : Reads d s (formDecimalToken s) := by
  obtain ⟨w, s₁, hs₁, h₁, hall, hstop⟩ := addWhile_spec (p := isdigit) (by decide) s
  have hw := h₁.ne_nil_of_stop h hstop
  have hdigits : d ++ w ∈ digits := mem_digits.mpr
    ⟨by simp [hw], List.forall_mem_append.mpr ⟨mem_many.mp hd, hall⟩⟩
  simp only [formDecimalToken, hs₁, Option.bind_eq_bind, Option.bind_some]
  split_ifs with hpoint hexp
  · have hpoint := beq_iff_eq.mp hpoint
    refine .trans h₁ (formFloatToken_reads ?_ (pointed_of_digits hdigits hpoint))
    rw [hpoint]
    decide
  · exact .trans h₁ (formFloatWithExpToken_reads (.inl hdigits) hexp)
  · refine .of_takes h₁ hw (.dec ⟨hdigits, ?_⟩)
    obtain ⟨c, u, rfl⟩ := List.exists_cons_of_ne_nil hw
    have hc : deref s.curPos = c := by rw [h₁.curPos]; rfl
    exact hc ▸ hoctal u

/-- **A hexadecimal number** from its `x`. -/
theorem formHexToken_reads (hd : d = ['0'])
    (h : (deref s.curPos == 'x' || deref s.curPos == 'X') = true) :
    Reads d s (formHexToken s) := by
  have hstarts : d ++ [deref s.curPos] ∈ hexPrefix :=
    Language.append_mem_mul (hd ▸ singleton_mem_letter (by decide)) (singleton_mem_letter h)
  have hne := ne_nul_of_mem (p := fun c => c == 'x' || c == 'X') (by decide) h
  obtain ⟨s₁, hs₁, h₁⟩ := addCurCharToToken_spec hne
  simp only [formHexToken, hs₁, Option.bind_eq_bind, Option.bind_some]
  split_ifs with hdigit
  · obtain ⟨s₂, hs₂, h₂⟩ := addCurCharToToken_spec (ne_nul_of_mem (by decide) hdigit)
    obtain ⟨w, s₃, hs₃, h₃, hall, -⟩ := addWhile_spec (p := isxdigit) (by decide) s₂
    simp only [hs₂, hs₃, Option.bind_some]
    refine .of_takes (h₁.trans (h₂.trans h₃)) (by simp) (.hex ?_)
    have hmem := Language.append_mem_mul hstarts
      (mem_many1.mpr ⟨List.cons_ne_nil _ w, List.forall_mem_cons.mpr ⟨hdigit, hall⟩⟩)
    rwa [List.append_assoc] at hmem
  · exact .of_takes h₁ (by simp) (.malHex hstarts (by simpa using hdigit))

/-- **A number that starts with `0`.** -/
theorem formOctalToken_reads (h : deref s.curPos = '0') : Reads [] s (formOctalToken s) := by
  obtain ⟨s₁, hs₁, h₁⟩ := addCurCharToToken_spec (s := s) (by rw [h]; decide)
  rw [h] at h₁
  have hpoint : ∀ {s : Scan}, (deref s.curPos == '.') = true → deref s.curPos ≠ nul := by
    intro s hs
    rw [beq_iff_eq.mp hs]
    decide
  simp only [formOctalToken, hs₁, Option.bind_eq_bind, Option.bind_some]
  split_ifs with hx ho hp
  · exact .trans h₁ (formHexToken_reads rfl hx)
  · obtain ⟨s₂, hs₂, h₂⟩ := addCurCharToToken_spec (ne_nul_of_mem (by decide) ho)
    obtain ⟨w, s₃, hs₃, h₃, hall, -⟩ := addWhile_spec (p := isodigit) (by decide) s₂
    have htakes := h₁.trans (h₂.trans h₃)
    have hodigits : ∀ c ∈ deref s₁.curPos :: w, isodigit c = true :=
      List.forall_mem_cons.mpr ⟨ho, hall⟩
    have hdigits : ∀ c ∈ '0' :: deref s₁.curPos :: w, isdigit c = true :=
      List.forall_mem_cons.mpr ⟨by decide, fun c hc => isdigit_of_isodigit (hodigits c hc)⟩
    simp only [hs₂, hs₃, Option.bind_some]
    split_ifs with hd hp
    · -- an octal number with the digit 8 or 9 is a decimal
      simp only [Bool.and_eq_true, decide_eq_true_eq] at hd
      refine .trans htakes (formDecimalToken_reads (mem_many.mpr hdigits) ?_ fun u hu => ?_)
      · simp only [isdigit, Bool.and_eq_true, decide_eq_true_eq]
        exact ⟨Char.le_trans (by decide) hd.1, hd.2⟩
      · obtain ⟨u', heq, -, hu'⟩ := mem_octal.mp hu
        have hmem : deref s₃.curPos ∈ u' := by
          obtain ⟨-, rfl⟩ := List.cons.inj heq
          simp
        have hle := hu' _ hmem
        simp only [isodigit, Bool.and_eq_true, decide_eq_true_eq] at hle
        exact absurd (Char.le_trans hd.1 hle.2) (by decide)
    · exact .trans htakes (formFloatToken_reads (hpoint hp)
        (pointed_of_digits (mem_digits.mpr ⟨by simp, hdigits⟩) (beq_iff_eq.mp hp)))
    · exact .of_takes htakes (by simp) (.octal (mem_octal.mpr ⟨_, rfl, by simp, hodigits⟩))
  · exact .trans h₁ (formFloatToken_reads (hpoint hp)
      (pointed_of_digits (mem_digits.mpr ⟨by simp, by simp [isdigit]⟩) (beq_iff_eq.mp hp)))
  · -- a zero alone
    refine .of_takes h₁ (by simp) (.dec ⟨mem_digits.mpr ⟨by simp, by simp [isdigit]⟩, fun hu => ?_⟩)
    obtain ⟨u, heq, hne, -⟩ := mem_octal.mp hu
    obtain ⟨-, rfl⟩ := List.cons.inj heq
    exact hne rfl

end Cs214.Tokenizer
