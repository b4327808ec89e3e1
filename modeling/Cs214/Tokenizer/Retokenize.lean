import Cs214.Tokenizer.Literals
import Cs214.Tokenizer.Tokens

/-!
# Tokenizing the tokens again

The tokens of a text, written one behind the other with a space between them, are read back with
their types. A token is found by looking at what follows it, so it has to be shown that a blank
behind it changes neither where it ends nor its type: such a token is `Settled`. The numerals that
a blank would cut are never tokens, since `formOctalToken` has cut them before.
-/

namespace Cs214.Tokenizer

variable {v : Variant} {r rest rest' token ts u w w' : CString} {c : Char} {t t' : TokenT}
  {tk tk' : TokenizerT} {l : List (CString × TokenT)} {fuel : ℕ}

/-- **A token that is given again** wherever it stands in front of a blank. -/
structure Settled (v : Variant) (p : CString × TokenT) : Prop where
  start : ∃ c u, p.1 = c :: u ∧ isspace c = false
  nul : nul ∉ p.1
  next : ∀ (tk : TokenizerT) (rest : CString), Blank rest → Tokenizer.nul ∉ tk.curPos →
    tk.curPos.dropWhile isspace = p.1 ++ rest →
    tkGetNextToken v tk = some ({ tk with type := p.2, curPos := rest }, some p.1)

/-! ### Words and control characters -/

private theorem Blank.isalnum (h : Blank rest) : isalnum (deref rest) = false :=
  h.not_mem (by decide) fun _ => not_isalnum_of_isspace

/-- A word in front of a blank is the next token. -/
theorem tkGetNextToken_word (h : w ∈ letter isalpha * many isalnum) (hb : Blank rest)
    (hcur : tk.curPos.dropWhile isspace = w ++ rest) :
    tkGetNextToken indexer tk = some ({ tk with type := .word, curPos := rest }, some w) := by
  obtain ⟨_, ⟨c, rfl, hc⟩, u, hu, rfl⟩ := Language.mem_mul.mp h
  refine tkGetNextToken_eq (ne_nul_of_mem (by decide) hc) ?_
  have hdigit : isdigit c = false := by
    rw [isalpha_iff] at hc
    rw [Bool.eq_false_iff, ne_eq, isdigit_iff]
    omega
  have hzero : (c == '0') = false := beq_eq_false_of_mem hc (by decide)
  have hloop := addWhile_append (mem_many.mp hu) hb.isalnum 1
  have hpart : indexer.wordPart = Tokenizer.isalnum := rfl
  simp only [formNextToken, hcur, List.cons_append, List.nil_append, deref_cons, hzero, hdigit, hc,
    formWordToken, addCurCharToToken_cons, Option.bind_eq_bind, Option.bind_some, Scan.addWhile,
    Nat.zero_add, hpart, hloop, if_true, Bool.false_eq_true, if_false]
  rw [List.length_cons, Nat.add_comm 1]
  rfl

/-- So is a control character. -/
private theorem tkGetNextToken_control (hc : iscntrl c = true) (hnul : c ≠ nul)
    (hcur : tk.curPos.dropWhile isspace = c :: rest) :
    tkGetNextToken indexer tk = some ({ tk with type := .ctr, curPos := rest }, some [c]) := by
  refine tkGetNextToken_eq hnul ?_
  have hnat := iscntrl_iff.mp hc
  have hdigit : isdigit c = false := by
    rw [Bool.eq_false_iff, ne_eq, isdigit_iff]
    omega
  have halpha : isalpha c = false := by
    rw [Bool.eq_false_iff, ne_eq, isalpha_iff]
    omega
  have hpunct : ispunct c = false := by
    rw [Bool.eq_false_iff, ne_eq, ispunct_iff]
    omega
  have hzero : (c == '0') = false := beq_eq_false_of_mem hc (by decide)
  have hstart : (iscntrl c && c != nul) = true := by
    rw [hc, Bool.true_and, bne_iff_ne]
    exact hnul
  simp only [formNextToken, hcur, List.cons_append, List.nil_append, deref_cons, hzero, hdigit,
    halpha, hpunct, hstart, if_true, Bool.false_eq_true, if_false]
  rfl

/-! ### Operators -/

/-- In front of a blank an operator is in the token. -/
private theorem prefix_of_blank (hu : u ∈ operators) (hb : Blank rest) (h : u <+: w ++ rest) :
    u <+: w := by
  have hspace : ∀ u ∈ operators, ∀ c ∈ u, isspace c = false := by
    have hall : (operators.all fun u => u.all fun c => !isspace c) = true := by decide
    simpa using hall
  rcases List.prefix_or_prefix_of_prefix h (List.prefix_append w rest) with hle | ⟨x, rfl⟩
  · exact hle
  · cases x with
    | nil => rw [List.append_nil]
    | cons d x =>
      have hx : d :: x <+: rest := (List.prefix_append_right_inj w).mp h
      obtain ⟨y, rfl⟩ := hx
      have hd := hspace _ hu d (by simp)
      rw [hb d rfl] at hd
      cases hd

/-- An operator stays one in front of a blank. -/
private theorem IsOperator.blank (h : IsOperator w r) (hb : Blank rest) : IsOperator w rest := by
  rcases h with h | ⟨hnone, c, rfl, hc⟩
  · exact .inl ⟨h.mem, List.prefix_append w rest, fun u hu hstarts =>
      (prefix_of_blank hu hb hstarts).length_le⟩
  · exact .inr ⟨fun u hu hstarts => hnone u hu ((prefix_of_blank hu hb hstarts).trans
      (List.prefix_append [c] r)), c, rfl, hc⟩

/-- An operator starts with punctuation. -/
private theorem IsOperator.ispunct (h : IsOperator w rest) : ispunct (deref w) = true := by
  have htable : ∀ u ∈ operators, Tokenizer.ispunct (deref u) = true := by decide
  rcases h with h | ⟨-, c, rfl, hc⟩
  · exact htable w h.mem
  · exact hc

/-- **The operator at a place** is determined by the text. -/
theorem IsOperator.unique (h : IsOperator w rest) (h' : IsOperator w' rest')
    (heq : w ++ rest = w' ++ rest') : w = w' := by
  rw [IsOperator] at h'
  rw [← heq] at h'
  rcases h with h | ⟨hnone, c, rfl, -⟩
  · rcases h' with h' | ⟨hnone, -⟩
    · exact (List.prefix_of_prefix_length_le h.starts h'.starts
        (h'.longest w h.mem h.starts)).eq_of_length_le (h.longest w' h'.mem h'.starts)
    · exact absurd h.starts (hnone w h.mem)
  · rcases h' with h' | ⟨-, d, rfl, -⟩
    · exact absurd h'.starts (hnone w' h'.mem)
    · rw [(List.cons.inj heq).1]

/-- Behind a token no comment starts when a blank follows. -/
private theorem Stops.blank (h : Stops opensComment (w ++ r)) (hne : w ≠ []) (hb : Blank rest) :
    Stops opensComment (w ++ rest) := by
  obtain ⟨c, u, rfl⟩ := List.exists_cons_of_ne_nil hne
  have hspace : isspace c = false := Bool.eq_false_iff.mpr fun hc => h _ (.space hc)
  refine stops_of_next hspace fun hopens => ?_
  cases u with
  | nil =>
    refine ⟨?_, ?_⟩
    · simpa using hb.ne (c := '/') (by decide) (by decide)
    · simpa using hb.ne (c := '*') (by decide) (by decide)
  | cons d u =>
    refine ⟨?_, ?_⟩
    · rintro (rfl : d = '/')
      exact h _ (.line hopens)
    · rintro (rfl : d = '*')
      exact h _ (.block hopens)

/-- **What is found at a place**: a call from white space in front of it. -/
theorem tkGetNextToken_at (hnul : nul ∉ tk.curPos) (hstops : Stops opensComment r)
    (hcur : tk.curPos.dropWhile isspace = r) (hstart : startsToken (deref r) = true) :
    ∃ t w rest, tkGetNextToken indexer tk =
      some ({ tk with type := t, curPos := rest }, some w) ∧ w ++ rest = r ∧ w ≠ [] ∧
        Lexeme isalnum (some .ctr) t w rest := by
  have hskips : Skips opensComment tk.curPos _ := .dropWhile tk.curPos
  rw [hcur] at hskips
  have heq {r' : CString} (h : Skipped tk.curPos r') (h' : Stops opensComment r') : r' = r :=
    ((h.skips hnul).of_stops (fun _ => not_isspace_of_opensComment) h' hskips).eq_of_stops hstops
  have hcall := tkGetNextToken_call total_indexer.wordPart tk
  generalize tkGetNextToken indexer tk = o at hcall ⊢
  cases hcall with
  | token hskipped _ hstops' hne hlexeme =>
    exact ⟨_, _, _, rfl, heq hskipped hstops', hne, hlexeme⟩
  | control hcontrol => cases hcontrol
  | stuck hskipped hstart' _ hstops' =>
    rw [heq hskipped hstops', hstart] at hstart'
    cases hstart'

private theorem deref_append (hne : w ≠ []) (r : CString) : deref (w ++ r) = deref w := by
  obtain ⟨c, u, rfl⟩ := List.exists_cons_of_ne_nil hne
  rfl

/-- A number that starts with punctuation starts with a point and a digit. -/
private theorem Form.exists_point (h : Form t w) (hpunct : ispunct (deref w) = true) :
    ∃ d u, w = '.' :: d :: u ∧ isdigit d = true := by
  obtain ⟨c, u, rfl, hdigit | rfl⟩ := h.exists_cons
  · have halnum := (ispunct_iff.mp hpunct).2.2
    rw [deref_cons, isalnum, hdigit, Bool.or_true] at halnum
    cases halnum
  · obtain ⟨d, f, x, rfl, hd, -⟩ := h.of_point
    exact ⟨d, f ++ x, rfl, hd⟩

/-- The only operator that starts with a point. -/
private theorem IsOperator.eq_point (h : IsOperator w rest) (hpoint : deref w = '.') :
    w = ['.'] := by
  have htable : ∀ u ∈ operators, deref u = '.' → u = ['.'] := by decide
  rcases h with h | ⟨-, c, rfl, -⟩
  · exact htable w h.mem hpoint
  · exact congrArg (fun c => [c]) hpoint

/-- **An operator in front of a blank** is the next token. -/
theorem tkGetNextToken_operator (h : IsOperator w rest) (hne : w ≠ []) (hb : Blank rest)
    (hstops : Stops opensComment (w ++ rest)) (hnul : nul ∉ tk.curPos)
    (hcur : tk.curPos.dropWhile isspace = w ++ rest) :
    tkGetNextToken indexer tk = some ({ tk with type := .ope, curPos := rest }, some w) := by
  have hpunct := h.ispunct
  have hstart : startsToken (deref (w ++ rest)) = true := by
    rw [deref_append hne, startsToken, hpunct, Bool.or_true, Bool.true_or]
  obtain ⟨t, w', rest', htoken, heq, hne', hlexeme⟩ := tkGetNextToken_at hnul hstops hcur hstart
  have hfirst : deref w' = deref w := by
    rw [← deref_append hne' rest', heq, deref_append hne]
  rw [← hfirst] at hpunct
  cases hlexeme with
  | word hw =>
    obtain ⟨_, ⟨c, rfl, hc⟩, u, -, rfl⟩ := Language.mem_mul.mp hw
    have halnum := (ispunct_iff.mp hpunct).2.2
    rw [isalnum, Bool.or_eq_false_iff] at halnum
    exact absurd hc (Bool.eq_false_iff.mp halnum.1)
  | number hnumber =>
    obtain ⟨d, u, rfl, hd⟩ := hnumber.form.exists_point hpunct
    obtain rfl := h.eq_point hfirst.symm
    -- the blank would be the digit
    have hrest : deref rest = d := congrArg deref (List.cons.inj heq).2.symm
    have hdigit := hb.isdigit
    rw [hrest, hd] at hdigit
    cases hdigit
  | control _ hc =>
    rw [iscntrl_iff] at hc
    rw [deref_cons, ispunct_iff] at hpunct
    omega
  | ope h' =>
    obtain rfl := h.unique h' heq.symm
    rw [htoken, List.append_cancel_left heq]

/-! ### Tokens -/

/-- **Every token is settled.** -/
theorem Settled.of_token (hnul : Tokenizer.nul ∉ tk.curPos)
    (htoken : tkGetNextToken indexer tk = some (tk', some w)) :
    Settled indexer (w, tkGetType tk') ∧ Tokenizer.nul ∉ tk'.curPos := by
  have hcall := tkGetNextToken_call total_indexer.wordPart tk
  rw [htoken] at hcall
  cases hcall with
  | @token t w r hskipped hstart hstops hne hlexeme =>
    have hmem : Tokenizer.nul ∉ w ++ r := fun hmem => hnul (hskipped.suffix.mem hmem)
    rw [List.mem_append, not_or] at hmem
    obtain ⟨c, u, rfl⟩ := List.exists_cons_of_ne_nil hne
    have hspace : isspace c = false := Bool.eq_false_iff.mpr fun hc => hstops _ (.space hc)
    refine ⟨⟨⟨c, u, rfl, hspace⟩, hmem.1, fun tk₂ rest hb hnul₂ hcur => ?_⟩, hmem.2⟩
    cases hlexeme with
    | word hw => exact tkGetNextToken_word hw hb hcur
    | number h =>
      exact tkGetNextToken_form h.form (fun hcut => hcut.tkGetNextToken_ne htoken) hb hcur
    | control ht hc =>
      obtain rfl := Option.some.inj ht
      exact tkGetNextToken_control hc (fun heq => hmem.1 (heq ▸ List.mem_cons_self)) hcur
    | ope h => exact tkGetNextToken_operator (h.blank hb) hne hb (hstops.blank hne hb) hnul₂ hcur

/-- The tokens of a text are settled. -/
theorem tokensFrom_settled (hnul : nul ∉ tk.curPos) (h : tokensFrom indexer fuel tk = some l) :
    ∀ p ∈ l, Settled indexer p := by
  induction l generalizing tk fuel with
  | nil => exact fun p hp => absurd hp List.not_mem_nil
  | cons p l ih =>
    obtain ⟨m, -, ⟨_, -, hcons⟩ | ⟨tk', w, rest, hnext, hcons, hrest⟩⟩ := tokensFrom_cases h
    · cases hcons
    · obtain ⟨rfl, rfl⟩ := List.cons.inj hcons
      obtain ⟨hsettled, hnul'⟩ := Settled.of_token hnul hnext
      exact List.forall_mem_cons.mpr ⟨hsettled, ih hnul' hrest⟩

/-! ### The tokens with spaces between them -/

/-- **The text of a list of tokens**, with a space between each two. -/
def spaced (l : List (CString × TokenT)) : CString := [' '].intercalate (l.map Prod.fst)

/-- What stands behind the first token of a list. -/
def behind (l : List (CString × TokenT)) : CString :=
  match l with
  | [] => []
  | _ :: _ => ' ' :: spaced l

private theorem spaced_cons (p : CString × TokenT) (l : List (CString × TokenT)) :
    spaced (p :: l) = p.1 ++ behind l := by
  cases l with
  | nil => simp [spaced, behind, List.intercalate]
  | cons q l => simp [spaced, behind, List.intercalate]

/-- Behind a spaced token there is a space or the end. -/
private theorem Blank.behind (l : List (CString × TokenT)) : Blank (behind l) := by
  cases l with
  | nil => exact .nil
  | cons p l => exact .space _

/-- The text starts with a token. -/
theorem dropWhile_spaced (hl : ∀ p ∈ l, Settled v p) :
    (spaced l).dropWhile isspace = spaced l := by
  cases l with
  | nil => rfl
  | cons p l =>
    obtain ⟨c, u, hp, hc⟩ := (hl p List.mem_cons_self).start
    rw [spaced_cons, hp, List.cons_append, List.dropWhile_cons_of_neg (by simp [hc])]

/-- The space behind a token is skipped. -/
private theorem dropWhile_behind (hl : ∀ p ∈ l, Settled v p) :
    (behind l).dropWhile isspace = spaced l := by
  cases l with
  | nil => rfl
  | cons p l => rw [behind, List.dropWhile_cons_of_pos rfl, dropWhile_spaced hl]

theorem nul_notMem_spaced (hl : ∀ p ∈ l, Settled v p) : nul ∉ spaced l := by
  induction l with
  | nil => exact List.not_mem_nil
  | cons p l ih =>
    obtain ⟨hp, hl⟩ := List.forall_mem_cons.mp hl
    rw [spaced_cons, List.mem_append, not_or]
    refine ⟨hp.nul, ?_⟩
    cases l with
    | nil => exact List.not_mem_nil
    | cons q l =>
      rw [behind, List.mem_cons, not_or]
      exact ⟨by decide, ih hl⟩

/-- Each token adds a character to the text. -/
theorem length_le_spaced (hl : ∀ p ∈ l, Settled v p) : l.length ≤ (spaced l).length := by
  induction l with
  | nil => exact le_rfl
  | cons p l ih =>
    obtain ⟨hp, hl⟩ := List.forall_mem_cons.mp hl
    obtain ⟨c, u, hp, -⟩ := hp.start
    have hle : (spaced l).length ≤ (behind l).length := by
      rw [← dropWhile_behind hl]
      exact (List.dropWhile_suffix _).length_le
    have := ih hl
    rw [spaced_cons, hp, List.length_append, List.length_cons, List.length_cons]
    omega

/-- **Settled tokens are read back** from a text that white space leads to. -/
theorem tokensFrom_spaced (hl : ∀ p ∈ l, Settled v p) (hnul : nul ∉ tk.curPos)
    (hcur : tk.curPos.dropWhile isspace = spaced l) (hfuel : l.length < fuel) :
    tokensFrom v fuel tk = some l := by
  induction l generalizing tk fuel with
  | nil =>
    obtain ⟨fuel, rfl⟩ := Nat.exists_eq_succ_of_ne_zero (Nat.ne_of_gt hfuel)
    have hnone : tkGetNextToken v tk = some ({ tk with type := v.zero, curPos := [] }, none) := by
      have hcur : tk.curPos.dropWhile isspace = [] := hcur
      simp only [tkGetNextToken, formNextToken, hcur]
      rfl
    rw [tokensFrom, hnone]
    rfl
  | cons p l ih =>
    obtain ⟨fuel, rfl⟩ := Nat.exists_eq_succ_of_ne_zero (Nat.ne_zero_of_lt hfuel)
    obtain ⟨hp, hl⟩ := List.forall_mem_cons.mp hl
    rw [spaced_cons] at hcur
    have hsuffix : behind l <:+ tk.curPos :=
      (List.suffix_append p.1 _).trans (hcur ▸ List.dropWhile_suffix _)
    have hrest : tokensFrom v fuel { tk with type := p.2, curPos := behind l } = some l :=
      ih hl (fun hmem => hnul (hsuffix.mem hmem)) (dropWhile_behind hl)
        (Nat.lt_of_succ_lt_succ hfuel)
    rw [tokensFrom, hp.next tk _ (.behind l) hnul hcur]
    simp only [Option.bind_eq_bind, Option.bind_some, hrest]
    rfl

/-- **The tokens of the tokens**: tokenizing is stable under writing the tokens with spaces
between them. -/
theorem tokens_spaced (ts : CString) (hts : nul ∉ ts) :
    ∃ l, tokens indexer ts = some l ∧ tokens indexer (spaced l) = some l := by
  obtain ⟨l, hl, -⟩ := tokens_spec total_indexer ts
  have hsettled : ∀ p ∈ l, Settled indexer p := tokensFrom_settled hts hl
  exact ⟨l, hl, tokensFrom_spaced hsettled (nul_notMem_spaced hsettled)
    (dropWhile_spaced hsettled) (Nat.lt_succ_of_le (length_le_spaced hsettled))⟩

theorem tokens_spaced_octal :
    ∃ l, tokens indexer ['0', '8', '+', '='] = some l ∧ tokens indexer (spaced l) = some l :=
  tokens_spaced ['0', '8', '+', '='] (by decide)

end Cs214.Tokenizer
