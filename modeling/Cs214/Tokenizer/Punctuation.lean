import Cs214.Tokenizer.Lexemes
import Cs214.Tokenizer.Comments

/-!
# Punctuation

The language of each type of token (`Lexeme`), and what `formPuncToken` does: it either passes a
comment and forms the token behind it, or takes the longest operator of the dictionary of the
standalone program (`IsOperator`), although it is written as a switch and never reads that table.
-/

namespace Cs214.Tokenizer

variable {v : Variant} {next : List Char → Option Formed} {cur r rest w : CString}
  {s : Scan} {c d : Char}

/-! ### The languages of the token types -/

/-- The operators of `createCDictionary`. -/
def operators : List CString :=
  [['('], [')'], ['['], [']'], ['~'], ['?'], [':'], ['.'], [','],
   ['*'], ['&'], ['-'], ['!'], ['+'], ['/'], ['%'], ['>'], ['<'],
   ['='], ['^'], ['|'], ['*', '='], ['&', '&'], ['-', '-'], ['!', '='], ['+', '+'], ['/', '='],
   ['%', '='], ['>', '>'], ['<', '<'], ['=', '='], ['^', '='], ['|', '|'], ['&', '='],
   ['-', '='], ['+', '='], ['>', '='], ['<', '='], ['|', '='], ['-', '>'], ['>', '>', '='],
   ['<', '<', '=']]

/-- **The operator tokens**, in front of `rest`: the longest operator, or a punctuation character
if no operator starts there. -/
def IsOperator (w rest : CString) : Prop :=
  Longest operators w (w ++ rest) ∨
    (∀ u ∈ operators, ¬u <+: w ++ rest) ∧ ∃ c, w = [c] ∧ ispunct c = true

/-- **The tokens of each type**, in front of `rest`. The class `part` continues a word, and
`control` is the type of a control character that is not white space. -/
inductive Lexeme (part : Char → Bool) (control : Option TokenT) :
    TokenT → CString → CString → Prop
  | word {w rest : CString} (h : w ∈ letter isalpha * many part)
      (hrest : part (deref rest) = false) : Lexeme part control .word w rest
  | number {t : TokenT} {w rest : CString} (h : Numeral t w rest) : Lexeme part control t w rest
  | control {t : TokenT} {c : Char} {rest : CString} (ht : t ∈ control)
      (hc : iscntrl c = true) (hspace : isspace c = false) : Lexeme part control t [c] rest
  | ope {w rest : CString} (h : IsOperator w rest) : Lexeme part control .ope w rest

/-! ### Tokens and pieces between tokens -/

/-- **A token at the cursor.** -/
structure Formed.At (v : Variant) (cur : CString) (f : Formed) : Prop where
  begin : f.begin = cur
  token : ∃ w, (⟨cur, 0⟩ : Scan).Takes w f.scan ∧ w ≠ [] ∧
    Lexeme v.wordPart v.control f.type w f.scan.curPos
  stops : Stops opensComment cur

/-- A comment is passed. -/
structure Passed (cur r : CString) : Prop where
  suffix : r <:+ cur
  lt : r.length < cur.length
  passes : nul ∉ cur → Passes opensComment cur r

/-- A comment of at least the two characters that open it. -/
private theorem Passed.of_skip (hsuffix : r <:+ rest)
    (hpasses : nul ∉ rest → Passes opensComment (c :: d :: rest) r) :
    Passed (c :: d :: rest) r where
  suffix := hsuffix.trans ⟨[c, d], rfl⟩
  lt := Nat.lt_of_le_of_lt hsuffix.length_le (Nat.lt_succ_of_lt (Nat.lt_succ_self _))
  passes := fun hnul => hpasses fun hmem =>
    hnul (List.mem_cons_of_mem c (List.mem_cons_of_mem d hmem))

/-- What a case of the switch does: a token, or a comment and the next token behind it. -/
inductive Punctuates (v : Variant) (next : List Char → Option Formed) (cur : CString) :
    Option Formed → Prop
  | token {f : Formed} (h : f.At v cur) : Punctuates v next cur (some f)
  | comment {r : CString} (h : Passed cur r) : Punctuates v next cur (next r)

/-- The character behind the cursor does not make a comment. -/
theorem stops_of_next (hspace : isspace c = false)
    (h : opensComment c = true → deref rest ≠ '/' ∧ deref rest ≠ '*') :
    Stops opensComment (c :: rest) := by
  intro r hr
  cases hr with
  | space hc => simp [hspace] at hc
  | line hc => exact (h hc).1 rfl
  | block hc => exact (h hc).2 rfl

/-- **An operator of the table** is a token where the text does not go on with a longer one. -/
theorem Formed.At.of_operator (hw : w ∈ operators) (htakes : (⟨cur, 0⟩ : Scan).Takes w s)
    (hrest : deref s.curPos ∉ follows operators w) (hstops : Stops opensComment cur) :
    Formed.At v cur ⟨.ope, cur, s⟩ where
  begin := rfl
  token := by
    have hne : ∀ w ∈ operators, w ≠ [] := by decide
    refine ⟨w, htakes, hne w hw, .ope (.inl (.of_follows hw fun c hc => ?_))⟩
    have hderef : deref s.curPos = c := by rw [deref, List.headD_eq_head?_getD, hc]; rfl
    exact hderef ▸ hrest
  stops := hstops

/-! ### The cases of the switch -/

section Punc

theorem takes_one : (⟨c :: rest, 0⟩ : Scan).Takes [c] ⟨rest, 1⟩ := ⟨rfl, rfl⟩

/-- The first characters of the operators that may end in `=`. -/
def assigning : List Char := ['*', '=', '-', '+', '&', '|', '^', '%', '!', '/']

private theorem operators_of_assigning : ∀ c ∈ assigning, [c] ∈ operators ∧ [c, '='] ∈ operators ∧
    follows operators [c, '='] = [] :=
  forall_mem_of_all (by decide)

/-- After `+`, `&` and `|` an operator goes on with `=` or with the same character. -/
private theorem follows_repeat : ∀ c ∈ ['+', '&', '|'], follows operators [c] ⊆ ['=', c] :=
  forall_mem_of_all (by decide)

/-- After the other characters that `=` may follow, it goes on with `=` only. -/
private theorem follows_assign :
    ∀ c ∈ ['^', '%', '!', '/', '*', '='], follows operators [c] ⊆ ['='] :=
  forall_mem_of_all (by decide)

/-- An operator of two characters that no operator continues. -/
private theorem Punctuates.of_two (hd : deref rest = d) (hnul : d ≠ nul) (hw : [c, d] ∈ operators)
    (hfollows : follows operators [c, d] = []) (hstops : Stops opensComment (c :: rest)) :
    Punctuates v next (c :: rest)
      ((addCurCharToToken ⟨rest, 1⟩).bind fun s => some ⟨.ope, c :: rest, s⟩) := by
  subst hd
  obtain ⟨s₂, hs₂, h₂⟩ := addCurCharToToken_spec (s := ⟨rest, 1⟩) hnul
  rw [hs₂]
  exact .token (.of_operator hw (takes_one.trans h₂) (by simp [hfollows]) hstops)

/-- **`*` and `=`**, and what falls into these cases: the operators of one character, with or
without `=` behind it. -/
theorem caseAssign_punctuates (hc : c ∈ assigning)
    (hrest : ∀ d ∈ follows operators [c], d = '=' ∨ d ≠ deref rest)
    (hstops : Stops opensComment (c :: rest)) :
    Punctuates v next (c :: rest) (caseAssign (c :: rest) ⟨c :: rest, 0⟩) := by
  obtain ⟨hone, htwo, hfollows⟩ := operators_of_assigning c hc
  simp only [caseAssign, addCurCharToToken_cons, Option.bind_eq_bind, Option.bind_some]
  split_ifs with hassign
  · exact .of_two (beq_iff_eq.mp hassign) (by decide) htwo hfollows hstops
  · refine .token (.of_operator hone takes_one (fun hmem => ?_) hstops)
    rcases hrest _ hmem with heq | hne
    · exact hassign (beq_iff_eq.mpr heq)
    · exact hne rfl

/-- **The comments**, which eight characters come to. -/
theorem caseComment_punctuates (hc : c ∈ assigning) (hopens : opensComment c = true)
    (hrest : ∀ d ∈ follows operators [c], d = '=' ∨ d ≠ deref rest) :
    Punctuates v next (c :: rest) (caseComment next (c :: rest) ⟨c :: rest, 0⟩) := by
  simp only [caseComment, derefNext, Option.bind_eq_bind, Option.bind_some]
  split_ifs with hline hblock
  · obtain ⟨rest, rfl⟩ := eq_cons_of_deref_eq (beq_iff_eq.mp hline) (by decide)
    refine .comment (.of_skip (skipLine_suffix rest) fun hnul => ?_)
    exact skipLine_eq hnul ▸ .line hopens
  · obtain ⟨rest, rfl⟩ := eq_cons_of_deref_eq (beq_iff_eq.mp hblock) (by decide)
    refine .comment (.of_skip (skipBlock_suffix rest) fun hnul => ?_)
    exact skipBlock_eq hnul ▸ .block hopens
  · refine caseAssign_punctuates hc hrest ?_
    exact stops_of_next (not_isspace_of_opensComment hopens)
      fun _ => ⟨by simpa using hline, by simpa using hblock⟩

/-- **`+`, `&` and `|`**: the operators of one character twice. -/
theorem caseRepeat_punctuates (hc : c ∈ ['-', '+', '&', '|'])
    (hrest : ∀ d ∈ follows operators [c], d = '=' ∨ d = c ∨ d ≠ deref rest) :
    Punctuates v next (c :: rest) (caseRepeat next (c :: rest) ⟨c :: rest, 0⟩) := by
  have htable : ∀ c ∈ ['-', '+', '&', '|'], c ∈ assigning ∧ opensComment c = true ∧
      [c, c] ∈ operators ∧ follows operators [c, c] = [] ∧ c ≠ nul ∧ c ≠ '/' ∧ c ≠ '*' :=
    forall_mem_of_all (by decide)
  obtain ⟨hassign, hopens, htwo, hfollows, hnul, hslash, hstar⟩ := htable c hc
  simp only [caseRepeat, derefNext, Option.bind_eq_bind, Option.bind_some]
  split_ifs with hrep
  · have heq : deref rest = c := beq_iff_eq.mp hrep
    refine .of_two heq hnul htwo hfollows ?_
    exact stops_of_next (not_isspace_of_opensComment hopens)
      fun _ => ⟨by rwa [heq], by rwa [heq]⟩
  · refine caseComment_punctuates hassign hopens fun d hd => (hrest d hd).imp_right ?_
    rintro (rfl | hne)
    · exact fun heq => hrep (beq_iff_eq.mpr heq.symm)
    · exact hne

/-- **`-`**: the operator `->`. -/
theorem caseMinus_punctuates :
    Punctuates v next ('-' :: rest) (caseMinus next ('-' :: rest) ⟨'-' :: rest, 0⟩) := by
  simp only [caseMinus, derefNext, Option.bind_eq_bind, Option.bind_some]
  split_ifs with harrow
  · have heq := beq_iff_eq.mp harrow
    refine .of_two heq (by decide) (by decide) (by decide) ?_
    exact stops_of_next (by decide) fun _ => by rw [heq]; decide
  · refine caseRepeat_punctuates (by decide) fun d hd => ?_
    have htable : ∀ d ∈ follows operators ['-'], d = '=' ∨ d = '-' ∨ d = '>' :=
      forall_mem_of_all (by decide)
    rcases htable d hd with rfl | rfl | rfl
    · exact .inl rfl
    · exact .inr (.inl rfl)
    · exact .inr (.inr fun heq => harrow (beq_iff_eq.mpr heq.symm))

/-- **`>` and `<`**: the operators of up to three characters. -/
theorem caseShift_punctuates (hc : c ∈ ['>', '<']) :
    Punctuates v next (c :: rest) (caseShift (c :: rest) ⟨c :: rest, 0⟩) := by
  have htable : ∀ c ∈ ['>', '<'], isspace c = false ∧ opensComment c = false ∧ c ≠ nul ∧
      [c] ∈ operators ∧ follows operators [c] ⊆ ['=', c] ∧
      [c, '='] ∈ operators ∧ follows operators [c, '='] = [] ∧
      [c, c] ∈ operators ∧ follows operators [c, c] = ['='] ∧
      [c, c, '='] ∈ operators ∧ follows operators [c, c, '='] = [] :=
    forall_mem_of_all (by decide)
  obtain ⟨hspace, hopens, hnul, hone, hfollow, hassign, hfollowAssign, htwo, hfollowTwo, hthree,
    hfollowThree⟩ := htable c hc
  have hstops : Stops opensComment (c :: rest) := stops_of_next hspace (by simp [hopens])
  simp only [caseShift, addCurCharToToken_cons, Option.bind_eq_bind, Option.bind_some]
  split_ifs with ha hrep
  · exact .of_two (beq_iff_eq.mp ha) (by decide) hassign hfollowAssign hstops
  · have heq : deref rest = c := beq_iff_eq.mp hrep
    obtain ⟨s₂, hs₂, h₂⟩ := addCurCharToToken_spec (s := ⟨rest, 1⟩) (by rwa [heq])
    rw [heq] at h₂
    simp only [hs₂, Option.bind_some]
    split_ifs with ha'
    · have heq' := beq_iff_eq.mp ha'
      obtain ⟨s₃, hs₃, h₃⟩ := addCurCharToToken_spec (s := s₂) (by rw [heq']; decide)
      rw [heq'] at h₃
      rw [hs₃]
      exact .token (.of_operator hthree (takes_one.trans (h₂.trans h₃)) (by simp [hfollowThree])
        hstops)
    · exact .token (.of_operator htwo (takes_one.trans h₂) (by simpa [hfollowTwo] using ha')
        hstops)
  · refine .token (.of_operator hone takes_one (fun hmem => ?_) hstops)
    rcases List.mem_pair.mp (hfollow hmem) with heq | heq
    · exact ha (beq_iff_eq.mpr heq)
    · exact hrep (beq_iff_eq.mpr heq)

/-- **`.`**: a floating number if a digit follows. -/
theorem casePoint_punctuates :
    Punctuates v next ('.' :: rest) (casePoint ('.' :: rest) ⟨'.' :: rest, 0⟩) := by
  have hstops : Stops opensComment ('.' :: rest) :=
    stops_of_next (by decide) fun hopens => absurd hopens (by decide)
  simp only [casePoint, addCurCharToToken_cons, Option.bind_eq_bind, Option.bind_some]
  split_ifs with hdigit
  · have hpointed : ∀ w ∈ many isdigit, ['.'] ++ deref rest :: w ∈ pointed := fun w hw =>
      .inr (Language.append_mem_mul (singleton_mem_letter (by decide))
        (mem_digits.mpr ⟨by simp, List.forall_mem_cons.mpr ⟨hdigit, mem_many.mp hw⟩⟩))
    obtain ⟨t, s, w, hs, htakes, -, hnumeral⟩ :=
      formFloatToken_reads (s := ⟨rest, 1⟩) (ne_nul_of_mem (by decide) hdigit) hpointed
    rw [hs]
    exact .token ⟨rfl, ⟨_, takes_one.trans htakes, by simp, .number hnumeral⟩, hstops⟩
  · exact .token (.of_operator (w := ['.']) (by decide) takes_one
      (by simp [show follows operators ['.'] = [] by decide]) hstops)

/-- **The default case**: the operators of one character, and the other punctuation. -/
theorem caseDefault_punctuates (hpunct : ispunct c = true)
    (hc : c ∉ '.' :: '>' :: '<' :: assigning) :
    Punctuates v next (c :: rest) (caseDefault (c :: rest) ⟨c :: rest, 0⟩) := by
  have hopens : opensComment c = false := by
    rw [Bool.eq_false_iff]
    intro h
    simp only [opensComment, slash, Bool.or_eq_true, beq_iff_eq] at h
    simp only [assigning, List.mem_cons] at hc
    tauto
  have hspace : isspace c = false := by
    rw [Bool.eq_false_iff]
    intro h
    rw [isspace_iff] at h
    rw [ispunct_iff] at hpunct
    omega
  have hstops : Stops opensComment (c :: rest) := stops_of_next hspace (by simp [hopens])
  have hfirst : ∀ u ∈ operators, u.take 1 ∈ operators := by decide
  have hsingle : ∀ u ∈ operators, u.length = 1 →
      u.headD nul ∈ '.' :: '>' :: '<' :: assigning ∨ follows operators u = [] := by
    decide
  simp only [caseDefault, addCurCharToToken_cons, Option.bind_eq_bind, Option.bind_some]
  by_cases hmem : [c] ∈ operators
  · -- an operator that is no longer one with any character added
    have hfollows := (hsingle [c] hmem rfl).resolve_left hc
    exact .token (.of_operator hmem takes_one (by simp [hfollows]) hstops)
  · -- no operator starts with a character that is not an operator itself
    have hnone : ∀ u ∈ operators, ¬u <+: c :: rest := by
      intro u hu hstarts
      have htake : u.take 1 = [c] := by
        cases u with
        | nil => exact absurd hu (by decide)
        | cons d u => rw [(List.cons_prefix_cons.mp hstarts).1]; rfl
      exact hmem (htake ▸ hfirst u hu)
    exact .token ⟨rfl, ⟨[c], takes_one, by simp, .ope (.inr ⟨hnone, c, rfl, hpunct⟩)⟩, hstops⟩

/-- **Punctuation**, by its first character. -/
theorem formPuncToken_punctuates (hpunct : ispunct c = true) :
    Punctuates v next (c :: rest) (formPuncToken next (c :: rest) ⟨c :: rest, 0⟩) := by
  have hderef : deref (⟨c :: rest, 0⟩ : Scan).curPos = c := rfl
  rw [formPuncToken, hderef]
  split
  case h_1 => exact casePoint_punctuates
  case h_2 => exact caseMinus_punctuates
  case h_3 | h_4 | h_5 =>
    refine caseRepeat_punctuates (by decide) fun d hd => ?_
    rw [← or_assoc]
    exact .inl (by simpa using follows_repeat _ (by decide) hd)
  case h_6 | h_7 | h_8 | h_9 =>
    refine caseComment_punctuates (by decide) (by decide) fun d hd => .inl ?_
    exact List.mem_singleton.mp (follows_assign _ (by decide) hd)
  case h_10 | h_11 =>
    refine caseAssign_punctuates (by decide) (fun d hd => .inl ?_)
      (stops_of_next (by decide) fun hopens => absurd hopens (by decide))
    exact List.mem_singleton.mp (follows_assign _ (by decide) hd)
  case h_12 | h_13 => exact caseShift_punctuates (by decide)
  case h_14 =>
    refine caseDefault_punctuates hpunct ?_
    simp only [assigning, List.mem_cons, List.not_mem_nil]
    tauto

end Punc

end Cs214.Tokenizer
