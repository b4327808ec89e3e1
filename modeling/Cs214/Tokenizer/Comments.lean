import Cs214.Tokenizer.Cursor
import Mathlib.Logic.Relation

/-!
# What lies between tokens

White space and comments lie between tokens. `Passes opens` is one such piece, with the
characters that may open a comment as a parameter: a comment of C is opened by a slash, but
`formPuncToken` comes to its code for comments from eight characters (`opensComment`).
`Skips opens` is any number of pieces. Both are deterministic, so how far a text can be skipped
is determined by the text (`Skips.of_stops`).
-/

namespace Cs214.Tokenizer

open Relation

variable {opens opens' : Char → Bool} {c d : Char} {cur r r₁ r₂ s : CString}

/-! ### Comments -/

/-- The text behind a line: behind the next newline, and nothing if there is none. -/
def behindLine (s : CString) : CString := (s.dropWhile (· != '\n')).tail

/-- The text behind a block comment: behind the first `*/`, and nothing if there is none. -/
def behindBlock : CString → CString
  | '*' :: '/' :: s => s
  | _ :: s => behindBlock s
  | [] => []

private theorem behindLine_suffix (s : CString) : behindLine s <:+ s :=
  (List.tail_suffix _).trans (List.dropWhile_suffix _)

private theorem behindBlock_suffix (s : CString) : behindBlock s <:+ s := by
  fun_induction behindBlock s with
  | case1 s => exact ⟨['*', '/'], rfl⟩
  | case2 c s _ ih => exact ih.trans (List.suffix_cons c s)
  | case3 => exact List.suffix_rfl

/-- What is behind a line comment is the end of the text. -/
theorem skipLine_suffix (cur : List Char) : skipLine cur <:+ cur := by
  induction cur with
  | nil => exact List.suffix_rfl
  | cons c cur ih =>
    rw [skipLine]
    split_ifs
    · exact List.suffix_rfl
    · exact List.suffix_cons c cur
    · exact ih.trans (List.suffix_cons c cur)

/-- So is what is behind a block comment. -/
theorem skipBlock_suffix (cur : List Char) : skipBlock cur <:+ cur := by
  induction cur with
  | nil => exact List.suffix_rfl
  | cons c cur ih =>
    rw [skipBlock]
    split_ifs
    · exact (List.tail_suffix cur).trans (List.suffix_cons c cur)
    · exact ih.trans (List.suffix_cons c cur)
    · exact List.suffix_rfl
    · exact ih.trans (List.suffix_cons c cur)

/-- The loop over a `//` comment ends behind its line. -/
theorem skipLine_eq (h : nul ∉ s) : skipLine s = behindLine s := by
  induction s with
  | nil => rfl
  | cons c s ih =>
    obtain ⟨hc, hs⟩ := not_or.mp (mt List.mem_cons.mpr h)
    rw [skipLine, if_neg (by simpa using Ne.symm hc)]
    split_ifs with hline
    · simp [behindLine, beq_iff_eq.mp hline]
    · rw [ih hs, behindLine, behindLine, List.dropWhile_cons_of_pos]
      simpa using hline

/-- The loop over a `/*` comment ends behind the first `*/`. -/
theorem skipBlock_eq (h : nul ∉ s) : skipBlock s = behindBlock s := by
  fun_induction behindBlock s with
  | case1 s => rfl
  | case2 c s hopen ih =>
    obtain ⟨hc, hs⟩ := not_or.mp (mt List.mem_cons.mpr h)
    rw [skipBlock, ih hs]
    split_ifs with hstar hslash hnul
    · obtain ⟨s', hs'⟩ := eq_cons_of_deref_eq (beq_iff_eq.mp hslash) (by decide)
      exact absurd hs' (hopen s' (beq_iff_eq.mp hstar))
    · rfl
    · exact absurd (beq_iff_eq.mp hnul).symm hc
    · rfl
  | case3 => rfl

/-! ### Pieces between tokens -/

/-- **A piece between tokens**: white space, a comment to the end of its line, or a comment to
the first `*/`; the end of the text ends both. -/
inductive Passes (opens : Char → Bool) : CString → CString → Prop
  | space {c : Char} {s : CString} (h : isspace c = true) : Passes opens (c :: s) s
  | line {c : Char} {s : CString} (h : opens c = true) :
      Passes opens (c :: '/' :: s) (behindLine s)
  | block {c : Char} {s : CString} (h : opens c = true) :
      Passes opens (c :: '*' :: s) (behindBlock s)

/-- **What is skipped**: any number of pieces. -/
def Skips (opens : Char → Bool) : CString → CString → Prop := ReflTransGen (Passes opens)

/-- The text does not start with a piece that can be skipped. -/
def Stops (opens : Char → Bool) (s : CString) : Prop := ∀ r, ¬Passes opens s r

/-- The character that opens a comment. -/
def slash (c : Char) : Bool := c == '/'

/-- The characters with which `formPuncToken` comes to its code for comments. -/
def opensComment (c : Char) : Bool :=
  c == '-' || c == '+' || c == '&' || c == '|' || c == '^' || c == '%' || c == '!' || slash c

/-- A character that opens a comment is punctuation, and no white space. -/
theorem not_isspace_of_opensComment (h : opensComment c = true) : isspace c = false := by
  simp only [opensComment, slash, Bool.or_eq_true, beq_iff_eq] at h
  rcases h with ((((((rfl | rfl) | rfl) | rfl) | rfl) | rfl) | rfl) | rfl <;> rfl

theorem ispunct_of_opensComment (h : opensComment c = true) : ispunct c = true := by
  simp only [opensComment, slash, Bool.or_eq_true, beq_iff_eq] at h
  rcases h with ((((((rfl | rfl) | rfl) | rfl) | rfl) | rfl) | rfl) | rfl <;> rfl

theorem opensComment_of_slash (h : slash c = true) : opensComment c = true := by
  rw [opensComment, h, Bool.or_true]

/-- A passage leaves the end of the text. -/
private theorem Passes.suffix (h : Passes opens s r) : r <:+ s := by
  cases h with
  | space => exact List.suffix_cons _ _
  | @line c s => exact (behindLine_suffix s).trans ⟨[c, '/'], rfl⟩
  | @block c s => exact (behindBlock_suffix s).trans ⟨[c, '*'], rfl⟩

/-- The more characters open a comment, the more is passed. -/
theorem Passes.mono (hopens : ∀ c, opens c = true → opens' c = true) (h : Passes opens s r) :
    Passes opens' s r := by
  cases h with
  | space h => exact .space h
  | line h => exact .line (hopens _ h)
  | block h => exact .block (hopens _ h)

/-- A piece is determined by the text. -/
private theorem Passes.unique (hopens : ∀ c, opens c = true → isspace c = false)
    (h₁ : Passes opens s r₁) (h₂ : Passes opens s r₂) : r₁ = r₂ := by
  have hclash : ∀ c, opens c = true → isspace c ≠ true := fun c hc => by simp [hopens c hc]
  cases h₁ with
  | space h =>
    cases h₂ with
    | space => rfl
    | line h' => exact absurd h (hclash _ h')
    | block h' => exact absurd h (hclash _ h')
  | line h =>
    cases h₂ with
    | space h' => exact absurd h' (hclash _ h)
    | line => rfl
  | block h =>
    cases h₂ with
    | space h' => exact absurd h' (hclash _ h)
    | block => rfl

namespace Skips

/-- Skipping leaves the end of the text. -/
theorem suffix (h : Skips opens s r) : r <:+ s := by
  induction h with
  | refl => exact List.suffix_rfl
  | tail _ hp ih => exact hp.suffix.trans ih

theorem mono (hopens : ∀ c, opens c = true → opens' c = true) (h : Skips opens s r) :
    Skips opens' s r := ReflTransGen.mono (fun _ _ => Passes.mono hopens) _ _ h

/-- Of two ends one can be skipped to from the other. -/
theorem total (hopens : ∀ c, opens c = true → isspace c = false) (h₁ : Skips opens s r₁)
    (h₂ : Skips opens s r₂) : Skips opens r₁ r₂ ∨ Skips opens r₂ r₁ :=
  ReflTransGen.total_of_right_unique (fun _ _ _ => Passes.unique hopens) h₁ h₂

/-- Where nothing can be skipped. -/
theorem eq_of_stops (hs : Stops opens s) (h : Skips opens s r) : r = s := by
  rcases h.cases_head with heq | ⟨r', hp, -⟩
  · exact heq.symm
  · exact absurd hp (hs r')

/-- **Everything that can be skipped leads to the end** of what is skipped. -/
theorem of_stops (hopens : ∀ c, opens c = true → isspace c = false) (h : Skips opens s r)
    (hr : Stops opens r) (h₁ : Skips opens s r₁) : Skips opens r₁ r := by
  rcases total hopens h₁ h with h₂ | h₂
  · exact h₂
  · rw [eq_of_stops hr h₂]
    exact .refl

/-- The white space in front. -/
theorem dropWhile (s : CString) : Skips opens s (s.dropWhile isspace) := by
  induction s with
  | nil => exact .refl
  | cons c s ih =>
    cases hc : isspace c
    · rw [List.dropWhile_cons_of_neg (by simp [hc])]
      exact .refl
    · rw [List.dropWhile_cons_of_pos hc]
      exact .head (.space hc) ih

end Skips

end Cs214.Tokenizer
