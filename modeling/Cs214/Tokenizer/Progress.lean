import Cs214.Tokenizer.Punctuation

/-!
# The next token

What one call of `TKGetNextToken` does: it skips the pieces between tokens, and then there is a
token, or a character that no token starts with, or the end (`Call`). The functions never read
behind the NUL, so the call is total, and a token that is not empty shortens what is left
(`tkGetNextToken_spec`). The loop `while ((token = TKGetNextToken(tk)))` therefore ends, and
gives the list `tokens`.
-/

namespace Cs214.Tokenizer

variable {v : Variant} {cur cur' r rest token w : CString}
  {fuel : ℕ} {c : Char} {t : TokenT} {tk tk' : TokenizerT} {o : Option (TokenT × Scan)}

/-! ### The start of a token -/

/-- The characters that a token starts with. -/
def startsToken (c : Char) : Bool := isalnum c || ispunct c || (iscntrl c && c != nul)

/-- **A token starts with any ASCII character** other than white space. -/
theorem startsToken_iff (hspace : isspace c = false) :
    startsToken c = true ↔ c ≠ nul ∧ c.toNat < 128 := by
  have hnul : c ≠ nul ↔ c.toNat ≠ 0 := not_congr (Char.toNat_inj (d := nul)).symm
  have hdel : c = '\x7f' ↔ c.toNat = 127 := (Char.toNat_inj (d := '\x7f')).symm
  rw [← Bool.not_eq_true, isspace_iff] at hspace
  rw [startsToken, Bool.or_eq_true, Bool.or_eq_true, Bool.and_eq_true, bne_iff_ne, ispunct_iff,
    hnul, iscntrl, Bool.or_eq_true, beq_iff_eq, decide_eq_true_eq, hdel,
    show c < ' ' ↔ c.toNat < 32 from UInt32.lt_iff_toNat_lt]
  cases halnum : isalnum c
  · simp only [Bool.false_eq_true, false_or, and_true]
    omega
  · rw [isalnum_iff] at halnum
    simp only [true_or, true_iff]
    omega

/-- **What is skipped** in front of a token. -/
structure Skipped (cur r : CString) : Prop where
  suffix : r <:+ cur
  skips : nul ∉ cur → Skips opensComment cur r

namespace Skipped

/-- What is skipped twice is skipped. -/
private theorem trans (h : Skipped cur cur') (h' : Skipped cur' r) : Skipped cur r where
  suffix := h'.suffix.trans h.suffix
  skips := fun hnul => (h.skips hnul).trans (h'.skips fun hmem => hnul (h.suffix.mem hmem))

private theorem of_passed (h : Passed cur r) : Skipped cur r where
  suffix := h.suffix
  skips := fun hnul => .single (h.passes hnul)

private theorem dropWhile (cur : CString) : Skipped cur (cur.dropWhile isspace) where
  suffix := List.dropWhile_suffix isspace
  skips := fun _ => Skips.dropWhile cur

end Skipped

/-! ### Numbers, words and control characters -/

/-- A number is a token. -/
private theorem Reads.at (h : Reads [] ⟨cur, 0⟩ o) (hstops : Stops opensComment cur) :
    ∃ f, (o.map fun r => (⟨r.1, cur, r.2⟩ : Formed)) = some f ∧ f.At v cur := by
  obtain ⟨t, s, w, rfl, htakes, hne, hnumeral⟩ := h
  exact ⟨_, rfl, rfl, ⟨w, htakes, hne, .number hnumeral⟩, hstops⟩

/-- **A word**: its first character and the characters that continue it. -/
theorem formWordToken_at (hv : v.wordPart nul = false) (hc : isalpha c = true)
    (hstops : Stops opensComment (c :: rest)) :
    ∃ f, ((formWordToken v ⟨c :: rest, 0⟩).map fun r => (⟨r.1, c :: rest, r.2⟩ : Formed)) =
      some f ∧ f.At v (c :: rest) := by
  obtain ⟨w, s, hs, htakes, hall, hstop⟩ := addWhile_spec hv ⟨rest, 1⟩
  have hword : [c] ++ w ∈ letter isalpha * many v.wordPart :=
    Language.append_mem_mul (singleton_mem_letter hc) (mem_many.mpr hall)
  refine ⟨⟨.word, c :: rest, s⟩, by simp [formWordToken, addCurCharToToken_cons, hs], rfl,
    ⟨[c] ++ w, takes_one.trans htakes, by simp, .word hword hstop⟩, hstops⟩

/-- A control character is a token of its own. -/
private theorem formNextControlToken_at (ht : v.control = some t) (hc : iscntrl c = true)
    (hspace : isspace c = false) (hstops : Stops opensComment (c :: rest)) :
    ∃ f, ((formNextControlToken v ⟨c :: rest, 0⟩).map fun r => (⟨r.1, c :: rest, r.2⟩ : Formed)) =
      some f ∧ f.At v (c :: rest) :=
  ⟨⟨t, c :: rest, ⟨rest, 1⟩⟩, by simp [formNextControlToken, ht, addCurCharToToken_cons], rfl,
    ⟨[c], takes_one, by simp, .control ht hc hspace⟩, hstops⟩

/-! ### The next token -/

/-- **What `formNextToken` does** from a cursor. -/
inductive Outcome (v : Variant) (cur : CString) : Option Formed → Prop
  /-- There is a token behind what is skipped. -/
  | token {r : CString} {f : Formed} (hskipped : Skipped cur r)
      (hstart : startsToken (deref r) = true) (hat : f.At v r) : Outcome v cur (some f)
  /-- The program ends at a control character. -/
  | control {r : CString} (hskipped : Skipped cur r) (hcontrol : v.control = none) :
      Outcome v cur none
  /-- There is the end, or a character that no token starts with. -/
  | stuck {r : CString} (hskipped : Skipped cur r) (hstart : startsToken (deref r) = false)
      (hspace : isspace (deref r) = false) (hstops : Stops opensComment r) :
      Outcome v cur (some ⟨v.zero, r, ⟨r, 0⟩⟩)

/-- What is formed behind a part that is skipped is what is formed from its start. -/
private theorem Outcome.of_skipped {o : Option Formed} (h : Skipped cur cur')
    (ho : Outcome v cur' o) :
    Outcome v cur o := by
  cases ho with
  | token hskipped hstart hat => exact .token (h.trans hskipped) hstart hat
  | control hskipped hcontrol => exact .control (h.trans hskipped) hcontrol
  | stuck hskipped hstart hspace hstops => exact .stuck (h.trans hskipped) hstart hspace hstops

private theorem Outcome.of_at {o : Option Formed} (h : Skipped cur r)
    (hstart : startsToken (deref r) = true) (ho : ∃ f, o = some f ∧ f.At v r) :
    Outcome v cur o := by
  obtain ⟨f, rfl, hat⟩ := ho
  exact .token h hstart hat

/-- **`formNextToken`**: comments are finitely many, as each takes two characters. -/
theorem formNextToken_outcome (hv : v.wordPart nul = false) (hfuel : cur.length < fuel) :
    Outcome v cur (formNextToken v fuel cur) := by
  induction fuel generalizing cur with
  | zero => exact absurd hfuel (Nat.not_lt_zero _)
  | succ fuel ih =>
    have hskipped := Skipped.dropWhile cur
    have hspace := List.head?_dropWhile_not isspace cur
    rw [formNextToken]
    generalize cur.dropWhile isspace = rest at hskipped hspace ⊢
    cases rest with
    | nil => exact .stuck hskipped (by decide) (by decide) (fun r hr => nomatch hr)
    | cons c rest =>
      have hderef : deref (c :: rest) = c := rfl
      replace hspace : isspace c = false := hspace
      have hstops (h : ispunct c = false) : Stops opensComment (c :: rest) :=
        stops_of_next hspace fun hopens => by simp [ispunct_of_opensComment hopens] at h
      have hstops' (h : isalnum c = true) : Stops opensComment (c :: rest) :=
        hstops (by simp [ispunct, h])
      simp only [hderef]
      split_ifs with hzero hdigit halpha hpunct hcntrl
      · have hzero : c = '0' := beq_iff_eq.mp hzero
        have halnum : isalnum c = true := by rw [hzero]; decide
        exact .of_at hskipped (by simp [startsToken, hderef, halnum])
          ((formOctalToken_reads (s := ⟨c :: rest, 0⟩) hzero).at (hstops' halnum))
      · have halnum : isalnum c = true := by simp [isalnum, hdigit]
        refine .of_at hskipped (by simp [startsToken, hderef, halnum])
          ((formDecimalToken_reads (s := ⟨c :: rest, 0⟩) (mem_many.mpr (by simp)) hdigit
            fun w hw => ?_).at (hstops' halnum))
        -- an octal number starts with a zero
        obtain ⟨u, heq, -⟩ := mem_octal.mp hw
        exact hzero (beq_iff_eq.mpr (List.cons.inj heq).1)
      · have halnum : isalnum c = true := by simp [isalnum, halpha]
        exact .of_at hskipped (by simp [startsToken, hderef, halnum])
          (formWordToken_at hv halpha (hstops' halnum))
      · have hcase : Punctuates v (formNextToken v fuel) (c :: rest) _ :=
          formPuncToken_punctuates hpunct
        generalize formPuncToken (formNextToken v fuel) (c :: rest) ⟨c :: rest, 0⟩ = o at hcase ⊢
        cases hcase with
        | token h => exact .token hskipped (by simp [startsToken, hderef, hpunct]) h
        | @comment r h =>
          -- a comment: the next token starts behind it
          refine .of_skipped (hskipped.trans (.of_passed h)) (ih ?_)
          have hle := hskipped.suffix.length_le
          have hlt := h.lt
          omega
      · have hstart : startsToken c = true := by
          rw [startsToken, hcntrl, Bool.or_true]
        cases hcontrol : v.control with
        | none =>
          rw [formNextControlToken, hcontrol]
          exact .control hskipped hcontrol
        | some t =>
          rw [Bool.and_eq_true] at hcntrl
          exact .of_at hskipped hstart (formNextControlToken_at hcontrol hcntrl.1 hspace
            (hstops (by simpa using hpunct)))
      · -- a byte of no class
        refine .stuck hskipped ?_ hspace (hstops (by simpa using hpunct))
        simp only [Bool.not_eq_true] at hdigit halpha hpunct hcntrl
        rw [startsToken, hderef, isalnum, halpha, hdigit, hpunct, hcntrl]
        rfl

/-! ### The calls of `TKGetNextToken` -/

/-- **What a call does.** -/
inductive Call (v : Variant) (tk : TokenizerT) : Option (TokenizerT × Option CString) → Prop
  /-- The token behind what is skipped. -/
  | token {t : TokenT} {w rest : CString} (hskipped : Skipped tk.curPos (w ++ rest))
      (hstart : startsToken (deref (w ++ rest)) = true)
      (hstops : Stops opensComment (w ++ rest)) (hne : w ≠ [])
      (hlexeme : Lexeme v.wordPart v.control t w rest) :
      Call v tk (some ({ tk with type := t, curPos := rest }, some w))
  /-- The program ends at a control character. -/
  | control (hcontrol : v.control = none) : Call v tk none
  /-- NULL, at the end or at a character that no token starts with. -/
  | stuck {r : CString} (hskipped : Skipped tk.curPos r) (hstart : startsToken (deref r) = false)
      (hspace : isspace (deref r) = false) (hstops : Stops opensComment r) :
      Call v tk (some ({ tk with type := v.zero, curPos := r }, none))

/-- The token is the string of its characters, which does not start with the NUL. -/
theorem tkGetNextToken_call (hv : v.wordPart nul = false) (tk : TokenizerT) :
    Call v tk (tkGetNextToken v tk) := by
  have houtcome := formNextToken_outcome hv (Nat.lt_succ_self tk.curPos.length)
  rw [tkGetNextToken]
  generalize formNextToken v (tk.curPos.length + 1) tk.curPos = o at houtcome ⊢
  cases houtcome with
  | @token r f hskipped hstart hat =>
    obtain ⟨w, htakes, hne, hlexeme⟩ := hat.token
    have hr : r = w ++ f.scan.curPos := htakes.curPos
    have htoken : f.begin.take f.scan.length = w := by
      have hlength : f.scan.length = w.length := by simpa using htakes.length
      rw [hlength, hat.begin, hr, List.take_left']
      rfl
    have hderef : deref w = deref r := by
      obtain ⟨c, u, rfl⟩ := List.exists_cons_of_ne_nil hne
      rw [hr]
      rfl
    have hnul : deref w ≠ nul := by
      rw [hderef]
      exact ne_nul_of_mem (p := startsToken) (by decide) hstart
    simp only [Option.bind_eq_bind, Option.bind_some, htoken, bne_iff_ne, if_pos hnul]
    have hstops := hat.stops
    rw [hr] at hskipped hstart hstops
    exact .token hskipped hstart hstops hne hlexeme
  | control hskipped hcontrol => exact .control hcontrol
  | stuck hskipped hstart hspace hstops => exact .stuck hskipped hstart hspace hstops

/-! ### Totality -/

/-- The words of a copy of the tokenizer. -/
def IsWord (v : Variant) (token : List Char) : Prop :=
  ∃ c w, token = c :: w ∧ isalpha c = true ∧ ∀ d ∈ w, v.wordPart d = true

/-- A copy of the tokenizer that goes on over control characters; `wordPart` is a class of
characters. -/
structure Variant.Total (v : Variant) : Prop where
  wordPart : v.wordPart nul = false
  control : ∃ t, v.control = some t ∧ t ≠ .word
  zero : v.zero ≠ .word

/-- The tokenizers of the indexer and of the bank form a token of everything. -/
theorem total_indexer : indexer.Total := ⟨by decide, ⟨_, rfl, by decide⟩, by decide⟩

theorem total_banking : banking.Total := ⟨by decide, ⟨_, rfl, by decide⟩, by decide⟩

/-- A word is what the words of the tokenizer are. -/
private theorem Lexeme.isWord (hv : v.Total) (h : Lexeme v.wordPart v.control .word w rest) :
    IsWord v w := by
  cases h with
  | word h =>
    obtain ⟨_, ⟨c, rfl, hc⟩, u, hu, rfl⟩ := Language.mem_mul.mp h
    exact ⟨c, u, rfl, hc, mem_many.mp hu⟩
  | number h => exact absurd rfl h.ne_word
  | control ht =>
    obtain ⟨t, htype, hne⟩ := hv.control
    exact absurd (Option.some.inj (htype.symm.trans ht)) hne

/-- **`formNextToken` is total**: behind what is skipped it takes a piece of the string, which
is empty where no token starts. -/
theorem formNextToken_takes (hv : v.Total) (hfuel : cur.length < fuel) :
    ∃ f, formNextToken v fuel cur = some f ∧ f.begin <:+ cur ∧
      ∃ w, (⟨f.begin, 0⟩ : Scan).Takes w f.scan := by
  have houtcome := formNextToken_outcome hv.wordPart hfuel
  generalize formNextToken v fuel cur = o at houtcome ⊢
  cases houtcome with
  | token hskipped _ hat =>
    obtain ⟨w, htakes, -⟩ := hat.token
    rw [← hat.begin] at hskipped htakes
    exact ⟨_, rfl, hskipped.suffix, w, htakes⟩
  | control _ hcontrol =>
    obtain ⟨t, ht, -⟩ := hv.control
    rw [ht] at hcontrol
    cases hcontrol
  | stuck hskipped => exact ⟨_, rfl, hskipped.suffix, [], .refl _⟩

/-- **`TKGetNextToken` is total**: the token is the piece of the string between the start of the
token and the new cursor, and one that is not NULL shortens the rest. -/
theorem tkGetNextToken_spec (hv : v.Total) (tk : TokenizerT) :
    ∃ tk' r, tkGetNextToken v tk = some (tk', r) ∧ tk'.tokens = tk.tokens ∧
      tk'.curPos <:+ tk.curPos ∧
      ∀ token, r = some token → token ≠ [] ∧ token ++ tk'.curPos <:+ tk.curPos ∧
        (tkGetType tk' = .word → IsWord v token) := by
  have hcall := tkGetNextToken_call hv.wordPart tk
  generalize tkGetNextToken v tk = o at hcall ⊢
  cases hcall with
  | @token t w rest hskipped _ _ hne hlexeme =>
    refine ⟨_, _, rfl, rfl, (List.suffix_append w rest).trans hskipped.suffix, ?_⟩
    rintro token htoken
    obtain rfl := Option.some.inj htoken
    refine ⟨hne, hskipped.suffix, ?_⟩
    rintro (rfl : t = .word)
    exact hlexeme.isWord hv
  | control hcontrol =>
    obtain ⟨t, ht, -⟩ := hv.control
    rw [ht] at hcontrol
    cases hcontrol
  | stuck hskipped => exact ⟨_, _, rfl, rfl, hskipped.suffix, fun _ h => nomatch h⟩

/-- A token that is not NULL is taken off the rest. -/
private theorem tkGetNextToken_lt (hv : v.Total)
    (h : tkGetNextToken v tk = some (tk', some token)) :
    tk'.curPos.length < tk.curPos.length := by
  obtain ⟨tk₁, r, h₁, -, -, hlt⟩ := tkGetNextToken_spec hv tk
  obtain ⟨rfl, rfl⟩ := Prod.mk.inj (Option.some.inj (h.symm.trans h₁))
  obtain ⟨hne, hpiece, -⟩ := hlt token rfl
  have hle := hpiece.length_le
  have hpos := List.length_pos_of_ne_nil hne
  rw [List.length_append] at hle
  omega

/-! ### All tokens -/

/-- The tokens with their types that repeated calls of `TKGetNextToken` give until NULL. -/
def tokensFrom (v : Variant) : ℕ → TokenizerT → Option (List (CString × TokenT))
  | 0, _ => none
  | fuel + 1, tk => do
    let (tk, token) ← tkGetNextToken v tk
    match token with
    | none => some []
    | some token => do
      let rest ← tokensFrom v fuel tk
      some ((token, tkGetType tk) :: rest)

/-- **The tokens of a string**; there are at most as many as characters. -/
def tokens (v : Variant) (ts : CString) : Option (List (CString × TokenT)) :=
  tokensFrom v (ts.length + 1) (tkCreate v ts)

/-- **The loop over the tokens ends**, and its words are words. -/
theorem tokensFrom_spec (hv : v.Total) (hfuel : tk.curPos.length < fuel) :
    ∃ l, tokensFrom v fuel tk = some l ∧ ∀ token, (token, .word) ∈ l → IsWord v token := by
  induction fuel generalizing tk with
  | zero => exact absurd hfuel (Nat.not_lt_zero _)
  | succ fuel ih =>
    obtain ⟨tk', r, hr, -, -, htoken⟩ := tkGetNextToken_spec hv tk
    rcases r with _ | token
    · exact ⟨[], by simp [tokensFrom, hr], by simp⟩
    · have hlt := tkGetNextToken_lt hv hr
      obtain ⟨l, hl, hwords⟩ := ih (show tk'.curPos.length < fuel by omega)
      refine ⟨(token, tkGetType tk') :: l, by simp [tokensFrom, hr, hl], fun word hword => ?_⟩
      rcases List.mem_cons.mp hword with heq | hword
      · obtain ⟨rfl, htype⟩ := Prod.mk.inj heq
        exact (htoken _ rfl).2.2 htype.symm
      · exact hwords word hword

/-- **The first call of the loop**: NULL, or a token and the tokens behind it. -/
theorem tokensFrom_cases {l : List (CString × TokenT)} (h : tokensFrom v fuel tk = some l) :
    ∃ n, fuel = n + 1 ∧ ((∃ tk', tkGetNextToken v tk = some (tk', none) ∧ l = []) ∨
      ∃ tk' token rest, tkGetNextToken v tk = some (tk', some token) ∧
        l = (token, tkGetType tk') :: rest ∧ tokensFrom v n tk' = some rest) := by
  cases fuel with
  | zero => cases h
  | succ n =>
    refine ⟨n, rfl, ?_⟩
    obtain ⟨⟨tk', token⟩, hnext, h⟩ := Option.bind_eq_some_iff.mp h
    cases token with
    | none => exact .inl ⟨tk', hnext, (Option.some.inj h).symm⟩
    | some token =>
      obtain ⟨rest, hrest, hl⟩ := Option.bind_eq_some_iff.mp h
      exact .inr ⟨tk', token, rest, hnext, (Option.some.inj hl).symm, hrest⟩

/-- The loop does not go on when it has ended. -/
theorem tokensFrom_mono {l : List (CString × TokenT)} (hl : tokensFrom v fuel tk = some l) {n : ℕ}
    (hn : fuel ≤ n) : tokensFrom v n tk = some l := by
  induction l generalizing tk fuel n with
  | nil =>
    obtain ⟨m, rfl, ⟨tk', hnext, -⟩ | ⟨_, _, _, -, hnil, -⟩⟩ := tokensFrom_cases hl
    · obtain ⟨n, rfl⟩ := Nat.exists_eq_add_one.mpr (Nat.zero_lt_of_lt hn)
      simp [tokensFrom, hnext]
    · cases hnil
  | cons p l ih =>
    obtain ⟨m, rfl, ⟨_, -, hcons⟩ | ⟨tk', token, rest, hnext, hcons, hrest⟩⟩ := tokensFrom_cases hl
    · cases hcons
    · obtain ⟨rfl, rfl⟩ := List.cons.inj hcons
      obtain ⟨n, rfl⟩ := Nat.exists_eq_add_one.mpr (Nat.zero_lt_of_lt hn)
      simp [tokensFrom, hnext, ih hrest (Nat.le_of_succ_le_succ hn)]

/-- Each token takes a character. -/
theorem tokensFrom_length_le {l : List (CString × TokenT)} (hv : v.Total)
    (hl : tokensFrom v fuel tk = some l) : l.length ≤ tk.curPos.length := by
  induction l generalizing tk fuel with
  | nil => exact Nat.zero_le _
  | cons p l ih =>
    obtain ⟨m, -, ⟨_, -, hcons⟩ | ⟨tk', token, rest, hnext, hcons, hrest⟩⟩ := tokensFrom_cases hl
    · cases hcons
    · obtain ⟨rfl, rfl⟩ := List.cons.inj hcons
      have hlt := tkGetNextToken_lt hv hnext
      have hle := ih hrest
      rw [List.length_cons]
      omega

/-- **Where a token comes from**: a call of `TKGetNextToken`, and a piece of the string. -/
theorem tokensFrom_mem {l : List (CString × TokenT)} (hv : v.Total)
    (hl : tokensFrom v fuel tk = some l) {token : CString} {type : TokenT}
    (h : (token, type) ∈ l) : token <:+: tk.curPos ∧
      ∃ tk₁ tk', tkGetNextToken v tk₁ = some (tk', some token) ∧ tkGetType tk' = type := by
  induction l generalizing tk fuel with
  | nil => cases h
  | cons p l ih =>
    obtain ⟨m, -, ⟨_, -, hcons⟩ | ⟨tk', token', rest, hnext, hcons, hrest⟩⟩ := tokensFrom_cases hl
    · cases hcons
    · obtain ⟨rfl, rfl⟩ := List.cons.inj hcons
      obtain ⟨tk₂, r, h₂, -, hsuffix, htoken⟩ := tkGetNextToken_spec hv tk
      obtain ⟨rfl, rfl⟩ := Prod.mk.inj (Option.some.inj (hnext.symm.trans h₂))
      rcases List.mem_cons.mp h with heq | h
      · obtain ⟨rfl, rfl⟩ := Prod.mk.inj heq
        have hpiece := (htoken token rfl).2.1
        exact ⟨(List.prefix_append _ _).isInfix.trans hpiece.isInfix, tk, tk', hnext, rfl⟩
      · obtain ⟨hsub, hcall⟩ := ih hrest h
        exact ⟨hsub.trans hsuffix.isInfix, hcall⟩

/-- The loop over all tokens comes to its end, and its words are words. -/
theorem tokens_spec (hv : v.Total) (ts : CString) :
    ∃ l, tokens v ts = some l ∧ ∀ token, (token, .word) ∈ l → IsWord v token :=
  tokensFrom_spec hv (Nat.lt_succ_self _)

end Cs214.Tokenizer
