import Cs214.Tokenizer.Model

/-!
# The cursor of the tokenizer

Every token function takes a piece of the string from the cursor on: `Scan.Takes s w s'` says
that `w` stood at the cursor of `s`, that `s'` stands behind it, and that the length counts it.
The functions never read behind the NUL.
-/

namespace Cs214.Tokenizer

variable {cur w w₁ w₂ : List Char} {s s₁ s₂ s₃ : Scan} {n : ℕ} {p : Char → Bool} {c : Char}

/-! ### Character classes as numbers -/

/-- The classes of `ctype.h` in the C locale, as ranges of codes. -/
theorem isdigit_iff : isdigit c = true ↔ 48 ≤ c.toNat ∧ c.toNat ≤ 57 := by
  simp only [isdigit, Bool.and_eq_true, decide_eq_true_eq, Char.le_def, UInt32.le_iff_toNat_le]
  exact Iff.rfl

theorem isodigit_iff : isodigit c = true ↔ 48 ≤ c.toNat ∧ c.toNat ≤ 55 := by
  simp only [isodigit, Bool.and_eq_true, decide_eq_true_eq, Char.le_def, UInt32.le_iff_toNat_le]
  exact Iff.rfl

theorem isspace_iff : isspace c = true ↔ c.toNat = 32 ∨ (9 ≤ c.toNat ∧ c.toNat ≤ 13) := by
  simp only [isspace, Bool.or_eq_true, Bool.and_eq_true, beq_iff_eq, decide_eq_true_eq,
    Char.le_def, UInt32.le_iff_toNat_le]
  exact or_congr_left (Char.toNat_inj (d := ' ')).symm

theorem isalpha_iff : isalpha c = true ↔
    (65 ≤ c.toNat ∧ c.toNat ≤ 90) ∨ (97 ≤ c.toNat ∧ c.toNat ≤ 122) := by
  simp only [isalpha, Bool.or_eq_true, Bool.and_eq_true, decide_eq_true_eq, Char.le_def,
    UInt32.le_iff_toNat_le]
  exact Iff.rfl

theorem isalnum_iff : isalnum c = true ↔ (48 ≤ c.toNat ∧ c.toNat ≤ 57) ∨
    (65 ≤ c.toNat ∧ c.toNat ≤ 90) ∨ (97 ≤ c.toNat ∧ c.toNat ≤ 122) := by
  rw [isalnum, Bool.or_eq_true, isalpha_iff, isdigit_iff]
  exact or_comm

theorem ispunct_iff : ispunct c = true ↔ 33 ≤ c.toNat ∧ c.toNat ≤ 126 ∧ isalnum c = false := by
  simp only [ispunct, Bool.and_eq_true, Bool.not_eq_true', decide_eq_true_eq, Char.le_def,
    UInt32.le_iff_toNat_le, and_assoc]
  exact Iff.rfl

theorem iscntrl_iff : iscntrl c = true ↔ c.toNat < 32 ∨ c.toNat = 127 := by
  simp only [iscntrl, Bool.or_eq_true, beq_iff_eq, decide_eq_true_eq]
  exact or_congr UInt32.lt_iff_toNat_lt (Char.toNat_inj (d := '\x7f')).symm

/-! ### Pieces of the string -/

theorem deref_cons (c : Char) (cur : CString) : deref (c :: cur) = c := rfl

/-- A character under the cursor that is not the NUL is the first of the rest. -/
theorem eq_cons_of_deref (h : deref cur ≠ nul) : ∃ rest, cur = deref cur :: rest := by
  cases cur with
  | nil => exact absurd rfl h
  | cons c rest => exact ⟨rest, rfl⟩

/-- A character that is not NUL is the first one of the rest of the text. -/
theorem eq_cons_of_deref_eq (h : deref cur = c) (hc : c ≠ nul) : ∃ rest, cur = c :: rest := by
  subst h
  exact eq_cons_of_deref hc

/-- **The cursor moves** over `w`. -/
structure Scan.Takes (s : Scan) (w : List Char) (s' : Scan) : Prop where
  curPos : s.curPos = w ++ s'.curPos
  length : s'.length = s.length + w.length

namespace Scan.Takes

theorem refl (s : Scan) : s.Takes [] s := ⟨rfl, rfl⟩

/-- A scan after a scan takes the words of both. -/
theorem trans (h₁ : s₁.Takes w₁ s₂) (h₂ : s₂.Takes w₂ s₃) : s₁.Takes (w₁ ++ w₂) s₃ where
  curPos := by rw [h₁.curPos, h₂.curPos, List.append_assoc]
  length := by rw [h₂.length, h₁.length, List.length_append, Nat.add_assoc]

end Scan.Takes

/-- A class of characters without the NUL. -/
theorem ne_nul_of_mem (hp : p nul = false) (hc : p c = true) : c ≠ nul := by
  rintro rfl
  rw [hp] at hc
  cases hc

theorem addCurCharToToken_cons (c : Char) (cur : List Char) (n : ℕ) :
    addCurCharToToken ⟨c :: cur, n⟩ = some ⟨cur, n + 1⟩ := rfl

/-- **`addCurCharToToken`** takes a character that is not the NUL. -/
theorem addCurCharToToken_spec (h : deref s.curPos ≠ nul) :
    ∃ s', addCurCharToToken s = some s' ∧ s.Takes [deref s.curPos] s' := by
  obtain ⟨rest, hrest⟩ := eq_cons_of_deref h
  refine ⟨⟨rest, s.length + 1⟩, ?_, hrest, rfl⟩
  rw [addCurCharToToken, hrest]

/-- **The loops** take the characters of their class and stop in front of another one. -/
theorem addWhile_spec (hp : p nul = false) (s : Scan) :
    ∃ w s', s.addWhile p = some s' ∧ s.Takes w s' ∧ (∀ c ∈ w, p c = true) ∧
      p (deref s'.curPos) = false := by
  obtain ⟨cur, n⟩ := s
  rw [Scan.addWhile]
  induction cur generalizing n with
  | nil => exact ⟨[], ⟨[], n⟩, by simp [Tokenizer.addWhile, hp], .refl _, by simp, hp⟩
  | cons c cur ih =>
    by_cases hc : p c = true
    · obtain ⟨w, s', hs', htakes, hall, hstop⟩ := ih (n + 1)
      have hone : (⟨c :: cur, n⟩ : Scan).Takes [c] ⟨cur, n + 1⟩ := ⟨rfl, rfl⟩
      refine ⟨c :: w, s', ?_, hone.trans htakes, List.forall_mem_cons.mpr ⟨hc, hall⟩, hstop⟩
      simpa [Tokenizer.addWhile, hc] using hs'
    · exact ⟨[], ⟨c :: cur, n⟩, by simp [Tokenizer.addWhile, hc], .refl _, by simp,
        by simpa [deref] using hc⟩

/-- A loop that starts on a character of its class takes at least that one. -/
theorem Scan.Takes.ne_nil_of_stop (h : s.Takes w s₁) (hs : p (deref s.curPos) = true)
    (hstop : p (deref s₁.curPos) = false) : w ≠ [] := by
  rintro rfl
  rw [show s.curPos = s₁.curPos from h.curPos, hstop] at hs
  cases hs

end Cs214.Tokenizer
