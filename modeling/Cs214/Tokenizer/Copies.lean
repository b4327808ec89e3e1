import Cs214.Tokenizer.Tokens

/-!
# The copies of the tokenizer compared

Two copies that read words alike differ only at a control character and in the type they set at
the end (`formNextToken_copies`): whatever stands in front, comments above all, they pass in the
same way. So the standalone program gives the tokens of the indexer, in the same places, up to the
control character at which it exits. `exiting` is the standalone copy with this exit made visible:
the call that exits gives the character as a token of type CTR (`tkGetNextToken_standalone`).
-/

namespace Cs214.Tokenizer

variable {v u : Variant} {R : Option Formed → Option Formed → Prop} {tk : TokenizerT}

/-! ### What the next token is needed for -/

/-- **The next token is formed behind a comment only.** -/
def PassesOn (punc : (List Char → Option Formed) → Option Formed) : Prop :=
  (∃ o, ∀ next, punc next = o) ∨ ∃ r, ∀ next, punc next = next r

private theorem passesOn_comment (begin : List Char) (s : Scan) :
    PassesOn fun next => caseComment next begin s := by
  unfold caseComment
  cases derefNext s.curPos with
  | none => exact .inl ⟨none, fun _ => rfl⟩
  | some c =>
    by_cases hline : c == '/'
    · exact .inr ⟨skipLine (s.curPos.drop 2), fun _ => if_pos hline⟩
    by_cases hblock : c == '*'
    · exact .inr ⟨skipBlock (s.curPos.drop 2), fun _ => (if_neg hline).trans (if_pos hblock)⟩
    · exact .inl ⟨caseAssign begin s, fun _ => (if_neg hline).trans (if_neg hblock)⟩

private theorem passesOn_repeat (begin : List Char) (s : Scan) :
    PassesOn fun next => caseRepeat next begin s := by
  unfold caseRepeat
  cases derefNext s.curPos with
  | none => exact .inl ⟨none, fun _ => rfl⟩
  | some c =>
    by_cases htwice : c == deref s.curPos
    · exact .inl ⟨_, fun _ => if_pos htwice⟩
    · rcases passesOn_comment begin s with ⟨o, ho⟩ | ⟨r, hr⟩
      · exact .inl ⟨o, fun next => (if_neg htwice).trans (ho next)⟩
      · exact .inr ⟨r, fun next => (if_neg htwice).trans (hr next)⟩

private theorem passesOn_minus (begin : List Char) (s : Scan) :
    PassesOn fun next => caseMinus next begin s := by
  unfold caseMinus
  cases derefNext s.curPos with
  | none => exact .inl ⟨none, fun _ => rfl⟩
  | some c =>
    by_cases harrow : c == '>'
    · exact .inl ⟨_, fun _ => if_pos harrow⟩
    · rcases passesOn_repeat begin s with ⟨o, ho⟩ | ⟨r, hr⟩
      · exact .inl ⟨o, fun next => (if_neg harrow).trans (ho next)⟩
      · exact .inr ⟨r, fun next => (if_neg harrow).trans (hr next)⟩

private theorem passesOn_punc (begin : List Char) (s : Scan) :
    PassesOn fun next => formPuncToken next begin s := by
  unfold formPuncToken
  split
  · exact .inl ⟨_, fun _ => rfl⟩
  · exact passesOn_minus begin s
  · exact passesOn_repeat begin s
  · exact passesOn_repeat begin s
  · exact passesOn_repeat begin s
  · exact passesOn_comment begin s
  · exact passesOn_comment begin s
  · exact passesOn_comment begin s
  · exact passesOn_comment begin s
  · exact .inl ⟨_, fun _ => rfl⟩
  · exact .inl ⟨_, fun _ => rfl⟩
  · exact .inl ⟨_, fun _ => rfl⟩
  · exact .inl ⟨_, fun _ => rfl⟩
  · exact .inl ⟨_, fun _ => rfl⟩

/-! ### Two copies -/

/-- The control character `c` in front of `r`, as a copy forms it. -/
def Variant.formControl (v : Variant) (c : Char) (r : List Char) : Option Formed :=
  v.control.map fun type => ⟨type, c :: r, ⟨r, 1⟩⟩

private theorem map_formNextControlToken (c : Char) (r : List Char) :
    ((formNextControlToken v ⟨c :: r, 0⟩).map fun f => (⟨f.1, c :: r, f.2⟩ : Formed)) =
      v.formControl c r := by
  cases h : v.control with
  | none => simp [formNextControlToken, Variant.formControl, h]
  | some type => simp [formNextControlToken, Variant.formControl, h, addCurCharToToken]

/-- **Two copies form the same token**, up to what they do at a control character and at the
end. -/
theorem formNextToken_copies (hpart : v.wordPart = u.wordPart) (hrefl : ∀ o, R o o)
    (hcontrol : ∀ c r, R (v.formControl c r) (u.formControl c r))
    (hzero : ∀ r, R (some ⟨v.zero, r, ⟨r, 0⟩⟩) (some ⟨u.zero, r, ⟨r, 0⟩⟩))
    (fuel : ℕ) (cur : List Char) : R (formNextToken v fuel cur) (formNextToken u fuel cur) := by
  induction fuel generalizing cur with
  | zero => exact hrefl _
  | succ fuel ih =>
    rw [formNextToken, formNextToken]
    generalize cur.dropWhile isspace = cur
    have hword : formWordToken v = formWordToken u := by
      funext s
      rw [formWordToken, formWordToken, hpart]
    dsimp only
    split_ifs with hzero' hdigit halpha hpunct hcntrl
    · exact hrefl _
    · exact hrefl _
    · rw [hword]
      exact hrefl _
    · rcases passesOn_punc cur ⟨cur, 0⟩ with ⟨o, ho⟩ | ⟨r, hr⟩
      · rw [show formPuncToken (formNextToken v fuel) cur ⟨cur, 0⟩ = o from ho _,
          show formPuncToken (formNextToken u fuel) cur ⟨cur, 0⟩ = o from ho _]
        exact hrefl o
      · rw [show formPuncToken (formNextToken v fuel) cur ⟨cur, 0⟩ = _ from hr _,
          show formPuncToken (formNextToken u fuel) cur ⟨cur, 0⟩ = _ from hr _]
        exact ih r
    · cases cur with
      | nil => simp [deref] at hcntrl
      | cons c r =>
        rw [map_formNextControlToken, map_formNextControlToken]
        exact hcontrol c r
    · exact hzero cur

/-! ### The exit of the standalone program -/

/-- **The standalone copy with its exit**: a control character is given as a token of type CTR,
and the caller exits there. -/
def exiting : Variant := ⟨isalnum, some .ctr, .ope⟩

/-- Only control characters have the type CTR. -/
theorem Numeral.ne_ctr {t : TokenT} {w rest : CString} (h : Numeral t w rest) : t ≠ .ctr := by
  cases h <;> decide

private theorem Lexeme.ne_ctr {part : Char → Bool} {t : TokenT} {w rest : CString}
    (h : Lexeme part none t w rest) : t ≠ .ctr := by
  cases h with
  | word => decide
  | number h => exact h.ne_ctr
  | control ht => cases ht
  | ope => decide

/-- The standalone copy gives no token of type CTR. -/
private theorem filter_standalone (tk : TokenizerT) :
    (tkGetNextToken standalone tk).filter (fun r => tkGetType r.1 ≠ .ctr) =
      tkGetNextToken standalone tk := by
  have hcall := tkGetNextToken_call (v := standalone) (by decide) tk
  generalize tkGetNextToken standalone tk = o at hcall ⊢
  cases hcall with
  | token _ _ _ _ hlexeme => exact Option.filter_some_pos (decide_eq_true hlexeme.ne_ctr)
  | control => rfl
  | stuck => rfl

/-- **The standalone program exits** where `exiting` gives a token of type CTR, and gives the same
token otherwise. -/
theorem tkGetNextToken_standalone (tk : TokenizerT) : tkGetNextToken standalone tk =
    (tkGetNextToken exiting tk).filter fun r => tkGetType r.1 ≠ .ctr := by
  have hcopies := formNextToken_copies (v := standalone) (u := exiting)
    (R := fun o o' => o = o' ∨ o = none ∧ ∃ begin s, o' = some ⟨.ctr, begin, s⟩)
    rfl (fun _ => .inl rfl) (fun c r => .inr ⟨rfl, c :: r, ⟨r, 1⟩, rfl⟩) (fun _ => .inl rfl)
    (tk.curPos.length + 1) tk.curPos
  rcases hcopies with heq | ⟨hnone, begin, s, hctr⟩
  · have hsame : tkGetNextToken standalone tk = tkGetNextToken exiting tk := by
      rw [tkGetNextToken, tkGetNextToken, heq]
    rw [← hsame, filter_standalone]
  · rw [tkGetNextToken, tkGetNextToken, hnone, hctr]
    exact (Option.filter_some_neg (by simp [tkGetType])).symm

/-! ### The tokens of the indexer -/

/-- A call of the two copies gives the same token; at the end the types differ. -/
private theorem tkGetNextToken_exiting (tk : TokenizerT) :
    tkGetNextToken exiting tk = tkGetNextToken indexer tk ∨
      ∃ tk₁ tk₂, tkGetNextToken exiting tk = some (tk₁, none) ∧
        tkGetNextToken indexer tk = some (tk₂, none) := by
  have hcopies := formNextToken_copies (v := exiting) (u := indexer)
    (R := fun o o' => o = o' ∨ ∃ r,
      o = some ⟨.ope, r, ⟨r, 0⟩⟩ ∧ o' = some ⟨.ctr, r, ⟨r, 0⟩⟩)
    rfl (fun _ => .inl rfl) (fun _ _ => .inl rfl) (fun r => .inr ⟨r, rfl, rfl⟩)
    (tk.curPos.length + 1) tk.curPos
  rcases hcopies with heq | ⟨r, hope, hctr⟩
  · exact .inl (by rw [tkGetNextToken, tkGetNextToken, heq])
  · refine .inr ⟨{ tk with type := .ope, curPos := r }, { tk with type := .ctr, curPos := r }, ?_⟩
    rw [tkGetNextToken, tkGetNextToken, hope, hctr]
    exact ⟨rfl, rfl⟩

/-- **The standalone program gives the tokens of the indexer**, with their types. -/
theorem tokensFrom_exiting (fuel : ℕ) (tk : TokenizerT) :
    tokensFrom exiting fuel tk = tokensFrom indexer fuel tk := by
  induction fuel generalizing tk with
  | zero => rfl
  | succ fuel ih =>
    rw [tokensFrom, tokensFrom]
    simp only [ih]
    rcases tkGetNextToken_exiting tk with heq | ⟨tk₁, tk₂, hexiting, hindexer⟩
    · rw [heq]
    · rw [hexiting, hindexer]
      rfl

/-- A call that gives no token does not set the type CTR. -/
private theorem tkGetType_exiting {tk' : TokenizerT}
    (h : tkGetNextToken exiting tk = some (tk', none)) :
    tkGetType tk' ≠ .ctr := by
  have hcall := tkGetNextToken_call (v := exiting) (by decide) tk
  rw [h] at hcall
  cases hcall with
  | stuck => exact TokenT.noConfusion

/-- The loop of the standalone program ends at a control character. -/
private theorem tokensFrom_standalone (fuel : ℕ) (tk : TokenizerT) : tokensFrom standalone fuel tk =
    (tokensFrom exiting fuel tk).filter fun l => ∀ p ∈ l, p.2 ≠ .ctr := by
  induction fuel generalizing tk with
  | zero => rfl
  | succ fuel ih =>
    rw [tokensFrom, tokensFrom, tkGetNextToken_standalone]
    rcases hnext : tkGetNextToken exiting tk with _ | ⟨tk', _ | token⟩
    · rfl
    · rw [Option.filter_some_pos (by simpa using tkGetType_exiting hnext)]
      rfl
    by_cases hctr : tkGetType tk' = .ctr
    · rw [Option.filter_some_neg (by simp [hctr])]
      cases h : tokensFrom exiting fuel tk' with
      | none => simp [h]
      | some l => simp [h, hctr, Option.filter]
    · rw [Option.filter_some_pos (by simp [hctr])]
      simp only [Option.bind_eq_bind, Option.bind_some, ih]
      cases tokensFrom exiting fuel tk' with
      | none => rfl
      | some l =>
        have hiff : (∀ p ∈ (token, tkGetType tk') :: l, p.2 ≠ .ctr) ↔ ∀ p ∈ l, p.2 ≠ .ctr :=
          List.forall_mem_cons.trans (and_iff_right hctr)
        by_cases hl : ∀ p ∈ l, p.2 ≠ .ctr
        · rw [Option.filter_some_pos (by simpa using hl)]
          refine (Option.filter_some_pos ?_).symm
          exact decide_eq_true (hiff.mpr hl)
        · rw [Option.filter_some_neg (by simpa using hl)]
          refine (Option.filter_some_neg ?_).symm
          exact decide_eq_false (mt hiff.mp hl)

/-- **The standalone copy and that of the indexer** give the same tokens with the same types for
every text, unless a control character is met: the standalone program exits there. -/
theorem tokens_standalone (ts : CString) : tokens standalone ts =
    (tokens indexer ts).filter fun l => ∀ p ∈ l, p.2 ≠ .ctr := by
  rw [tokens, tokensFrom_standalone, tokensFrom_exiting]
  rfl

end Cs214.Tokenizer
