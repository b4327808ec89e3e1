import Cs214.Tokenizer.Progress

/-!
# The tokens of a text

What a caller of `TKGetNextToken` can rely on. Every token belongs to the language of its type
(`tkGetNextToken_lexeme`). What is skipped in front of a token consists of white space and
comments unless one of the characters `-+&|^%!` stands where a slash opens a comment
(`tkGetNextToken_skips_iff`), because these fall through to the code for comments. And NULL means
that nothing but white space and comments is left unless skipping ends at a byte above ASCII, or
such a comment takes the rest of the text (`tkGetNextToken_null_iff`).
-/

namespace Cs214.Tokenizer

open Relation

variable {v : Variant} {cur r rest s token ts : CString} {tk tk' : TokenizerT}
  {res : Option CString} {c d : Char}

/-! ### Types -/

private theorem Lexeme.of_control {part : Char → Bool} {control : Option TokenT} {t t' : TokenT}
    (hcontrol : ∀ u ∈ control, u = t') (h : Lexeme part control t token rest) :
    Lexeme part (some t') t token rest := by
  cases h with
  | word h hrest => exact .word h hrest
  | number h => exact .number h
  | control ht hc hspace => exact .control (hcontrol t ht ▸ rfl) hc hspace
  | ope h => exact .ope h

/-- **A token belongs to the language of its type.** -/
theorem tkGetNextToken_lexeme (hv : v = indexer ∨ v = standalone)
    (h : tkGetNextToken v tk = some (tk', some token)) :
    token ++ tk'.curPos <:+ tk.curPos ∧
      Lexeme isalnum (some .ctr) (tkGetType tk') token tk'.curPos := by
  have hnul : v.wordPart nul = false := by rcases hv with rfl | rfl <;> decide
  have hpart : v.wordPart = isalnum := by rcases hv with rfl | rfl <;> rfl
  have hcontrol : ∀ t ∈ v.control, t = .ctr := by rcases hv with rfl | rfl <;> decide
  have hcall := tkGetNextToken_call hnul tk
  rw [h] at hcall
  cases hcall with
  | token hskipped _ _ _ hlexeme =>
    rw [hpart] at hlexeme
    exact ⟨hskipped.suffix, hlexeme.of_control hcontrol⟩

/-- The second token of a text. -/
theorem tkGetNextToken_lexeme_arrow :
    ['-', '>'] ++ ['x'] <:+ [' ', '-', '>', 'x'] ∧
      Lexeme isalnum (some .ctr) .ope ['-', '>'] ['x'] :=
  tkGetNextToken_lexeme (.inl rfl)
    (show tkGetNextToken indexer ⟨['p', ' ', '-', '>', 'x'], [' ', '-', '>', 'x'], .word⟩ =
      some (⟨['p', ' ', '-', '>', 'x'], ['x'], .ope⟩, some ['-', '>']) by decide)

/-! ### What is skipped -/

/-- **A comment that is none**: one of the characters that fall through to the code for comments
stands where a slash would open one. -/
def PseudoComment (cur : CString) : Prop :=
  ∃ c d s, Skips slash cur (c :: d :: s) ∧ opensComment c = true ∧ c ≠ '/' ∧ (d = '/' ∨ d = '*')

private theorem Stops.slash (h : Stops opensComment s) : Stops slash s :=
  fun r hr => h r (hr.mono fun _ => opensComment_of_slash)

private theorem not_isspace_of_slash (c : Char) (h : slash c = true) : isspace c = false :=
  not_isspace_of_opensComment (opensComment_of_slash h)

/-- Where such a comment begins, nothing can be skipped. -/
private theorem stops_of_pseudo (hopens : opensComment c = true) (hslash : c ≠ '/') :
    Stops slash (c :: s) := by
  intro r hr
  cases hr with
  | space h => simp [not_isspace_of_opensComment hopens] at h
  | line h => exact hslash (beq_iff_eq.mp h)
  | block h => exact hslash (beq_iff_eq.mp h)

private theorem passes_of_pseudo (hopens : opensComment c = true) (hd : d = '/' ∨ d = '*') :
    ∃ r, Passes opensComment (c :: d :: s) r := by
  rcases hd with rfl | rfl
  · exact ⟨_, .line hopens⟩
  · exact ⟨_, .block hopens⟩

/-- **What is skipped is white space and comments** exactly if no such comment is met. -/
theorem Skips.slash_iff (h : Skips opensComment cur r) (hr : Stops opensComment r) :
    Skips slash cur r ↔ ¬PseudoComment cur := by
  constructor
  · rintro hskips ⟨c, d, s, hpseudo, hopens, hslash, hd⟩
    have hstops : Stops slash (c :: d :: s) := stops_of_pseudo hopens hslash
    have heq : r = c :: d :: s := by
      rcases hskips.total not_isspace_of_slash hpseudo with h' | h'
      · exact (h'.eq_of_stops hr.slash).symm
      · exact h'.eq_of_stops hstops
    obtain ⟨r', hpasses⟩ := passes_of_pseudo (s := s) hopens hd
    exact hr r' (heq ▸ hpasses)
  · intro hnone
    -- induction on the pieces that are skipped, the first one is a comment of a slash
    induction h using ReflTransGen.head_induction_on with
    | refl => exact .refl
    | @head cur cur' hpass _ ih =>
      have hgenuine : Passes slash cur cur' := by
        cases hpass with
        | space h => exact .space h
        | @line c s h =>
          refine .line (beq_iff_eq.mpr (not_not.mp fun hslash => hnone ?_))
          exact ⟨c, '/', s, .refl, h, hslash, .inl rfl⟩
        | @block c s h =>
          refine .block (beq_iff_eq.mpr (not_not.mp fun hslash => hnone ?_))
          exact ⟨c, '*', s, .refl, h, hslash, .inr rfl⟩
      refine .head hgenuine (ih fun hpseudo => hnone ?_)
      obtain ⟨c, d, s, hskips, hrest⟩ := hpseudo
      exact ⟨c, d, s, .head hgenuine hskips, hrest⟩

/-- A call skips to where nothing more can be skipped. -/
private theorem Call.skips {o : TokenizerT × Option CString} (h : Call v tk (some o))
    (hnul : nul ∉ tk.curPos) : Skips opensComment tk.curPos (o.2.getD [] ++ o.1.curPos) ∧
      Stops opensComment (o.2.getD [] ++ o.1.curPos) := by
  cases h with
  | token hskipped _ hstops => exact ⟨hskipped.skips hnul, hstops⟩
  | stuck hskipped _ _ hstops => exact ⟨hskipped.skips hnul, hstops⟩

/-- **What a call skips** in front of a token, or of what is left when there is none. -/
theorem tkGetNextToken_skips_iff (hv : v = indexer ∨ v = standalone) (hnul : nul ∉ tk.curPos)
    (h : tkGetNextToken v tk = some (tk', res)) :
    Skips slash tk.curPos (res.getD [] ++ tk'.curPos) ↔ ¬PseudoComment tk.curPos := by
  have hpart : v.wordPart nul = false := by rcases hv with rfl | rfl <;> decide
  have hcall := tkGetNextToken_call hpart tk
  rw [h] at hcall
  obtain ⟨hskips, hstops⟩ := hcall.skips hnul
  exact hskips.slash_iff hstops

/-- A text `/*x*/y`, in front of `y`. -/
theorem tkGetNextToken_skips_iff_block :
    Skips slash ['/', '*', 'x', '*', '/', 'y'] ['y'] ↔
      ¬PseudoComment ['/', '*', 'x', '*', '/', 'y'] :=
  tkGetNextToken_skips_iff (.inr rfl) (by decide)
    (show tkGetNextToken standalone (tkCreate standalone ['/', '*', 'x', '*', '/', 'y']) =
      some (⟨['/', '*', 'x', '*', '/', 'y'], [], .word⟩, some ['y']) by decide)

/-- In `+/x`, a newline and `y` the call skips the plus and all of its line. -/
theorem not_tkGetNextToken_skips :
    ¬∀ (tk tk' : TokenizerT) (token : CString), nul ∉ tk.curPos →
      tkGetNextToken indexer tk = some (tk', some token) →
        Skips slash tk.curPos (token ++ tk'.curPos) := by
  intro h
  have hskips : Skips slash ['+', '/', 'x', '\n', 'y'] ['y'] :=
    h (tkCreate indexer ['+', '/', 'x', '\n', 'y']) ⟨['+', '/', 'x', '\n', 'y'], [], .word⟩ ['y']
      (by decide) (by decide)
  have heq := hskips.eq_of_stops (stops_of_pseudo (by decide) (by decide))
  exact absurd heq (by decide)

/-! ### NULL -/

/-- **The tokenizers of a text**: where calls of `TKGetNextToken` come to. -/
def Reached (v : Variant) (ts : CString) : TokenizerT → Prop :=
  ReflTransGen (fun tk tk' => ∃ res, tkGetNextToken v tk = some (tk', res)) (tkCreate v ts)

/-- The cursor stays in the text. -/
private theorem Reached.suffix (hv : v.Total) (h : Reached v ts tk) : tk.curPos <:+ ts := by
  induction h with
  | refl => exact List.suffix_rfl
  | @tail tk tk' _ hcall ih =>
    obtain ⟨res, hres⟩ := hcall
    obtain ⟨tk₁, res₁, h₁, -, hsuffix, -⟩ := tkGetNextToken_spec hv tk
    obtain ⟨rfl, rfl⟩ := Prod.mk.inj (Option.some.inj (hres.symm.trans h₁))
    exact hsuffix.trans ih

/-- No piece of what is skipped starts above ASCII. -/
private theorem Passes.ascii (h : Passes opensComment (c :: s) r) : c.toNat < 128 := by
  have hopens (h : opensComment c = true) : c.toNat < 128 := by
    have := ispunct_iff.mp (ispunct_of_opensComment h)
    omega
  cases h with
  | space h =>
    rw [isspace_iff] at h
    omega
  | line h => exact hopens h
  | block h => exact hopens h

/-- Skipping meets no character above ASCII if it does not end at one. -/
private theorem Skips.ascii (hskips : Skips opensComment cur r) (hstops : Stops opensComment r)
    (hr : ∀ c s, r = c :: s → c.toNat < 128) (h : Skips opensComment cur (c :: s)) :
    c.toNat < 128 := by
  have hend := hskips.of_stops (fun _ => not_isspace_of_opensComment) hstops h
  rcases hend.cases_head with heq | ⟨_, hpass, -⟩
  · exact hr c s heq.symm
  · exact hpass.ascii

/-- What is skipped does not reach the end if there is something left. -/
private theorem Skips.not_nil (hskips : Skips opensComment cur r) (hstops : Stops opensComment r)
    (hr : r ≠ []) : ¬Skips opensComment cur [] := by
  intro h
  have hsuffix := (hskips.of_stops (fun _ => not_isspace_of_opensComment) hstops h).suffix
  exact hr (List.suffix_nil.mp hsuffix)

/-- **When there is NULL only at the end**, by where skipping ends. -/
theorem Call.null_iff {o : TokenizerT × Option CString} (h : Call v tk (some o))
    (hnul : nul ∉ tk.curPos) : (o.2 = none → Skips slash tk.curPos []) ↔
      (∀ c s, Skips opensComment tk.curPos (c :: s) → c.toNat < 128) ∧
        ¬(PseudoComment tk.curPos ∧ Skips opensComment tk.curPos []) := by
  cases h with
  | @token t w rest hskipped hstart hstops hne =>
    have hskips := hskipped.skips hnul
    refine iff_of_true (fun h => nomatch h) ⟨fun c s h => ?_, fun h => ?_⟩
    · refine hskips.ascii hstops (fun d u hd => ?_) h
      have hspace : isspace d = false := by
        rw [Bool.eq_false_iff]
        exact fun hspace => hstops u (hd ▸ .space hspace)
      rw [hd] at hstart
      exact ((startsToken_iff hspace).mp hstart).2
    · exact hskips.not_nil hstops (by simp [hne]) h.2
  | @stuck r hskipped hstart hspace hstops =>
    have hskips := hskipped.skips hnul
    rw [eq_self, true_imp_iff]
    cases r with
    | nil =>
      rw [hskips.slash_iff hstops]
      refine ⟨fun h => ⟨fun c s => hskips.ascii hstops (fun _ _ heq => nomatch heq), ?_⟩, ?_⟩
      · exact fun hpseudo => h hpseudo.1
      · exact fun h hpseudo => h.2 ⟨hpseudo, hskips⟩
    | cons c r =>
      have habove : ¬c.toNat < 128 := by
        intro hlt
        have hc : c ≠ nul := by
          rintro rfl
          exact hnul (hskipped.suffix.mem List.mem_cons_self)
        exact Bool.eq_false_iff.mp hstart ((startsToken_iff hspace).mpr ⟨hc, hlt⟩)
      refine iff_of_false (fun h => ?_) fun h => habove (h.1 c r hskips)
      exact hskips.not_nil hstops (List.cons_ne_nil c r) (h.mono fun _ => opensComment_of_slash)

/-- **When NULL means the end of the text**: every call returns, and it returns NULL only if white
space and comments are left, unless skipping ends at a byte above ASCII or one of the comments
that are none takes the rest. -/
theorem tkGetNextToken_null_iff (hts : nul ∉ ts) (hreached : Reached indexer ts tk) :
    ∃ tk' res, tkGetNextToken indexer tk = some (tk', res) ∧
      ((res = none → Skips slash tk.curPos []) ↔
        (∀ c s, Skips opensComment tk.curPos (c :: s) → c.toNat < 128) ∧
          ¬(PseudoComment tk.curPos ∧ Skips opensComment tk.curPos [])) := by
  obtain ⟨tk', res, hres, -⟩ := tkGetNextToken_spec total_indexer tk
  have hcall := tkGetNextToken_call total_indexer.wordPart tk
  rw [hres] at hcall
  have hnul : nul ∉ tk.curPos := fun h => hts ((hreached.suffix total_indexer).mem h)
  exact ⟨tk', res, hres, hcall.null_iff hnul⟩

theorem tkGetNextToken_null_iff_blank :
    ∃ tk' res, tkGetNextToken indexer (tkCreate indexer [' ', '/', '/', 'x']) = some (tk', res) ∧
      ((res = none → Skips slash [' ', '/', '/', 'x'] []) ↔
        (∀ c s, Skips opensComment [' ', '/', '/', 'x'] (c :: s) → c.toNat < 128) ∧
          ¬(PseudoComment [' ', '/', '/', 'x'] ∧ Skips opensComment [' ', '/', '/', 'x'] [])) :=
  tkGetNextToken_null_iff (show nul ∉ [' ', '/', '/', 'x'] by decide) .refl

/-- In the text `é cat` in UTF-8 the first call returns NULL. -/
theorem not_tkGetNextToken_null :
    ¬∀ (ts : CString) (tk tk' : TokenizerT), nul ∉ ts → Reached indexer ts tk →
      tkGetNextToken indexer tk = some (tk', none) → Skips slash tk.curPos [] := by
  intro h
  have hskips : Skips slash ['\xc3', '\xa9', ' ', 'c', 'a', 't'] [] :=
    h _ (tkCreate indexer ['\xc3', '\xa9', ' ', 'c', 'a', 't'])
      ⟨['\xc3', '\xa9', ' ', 'c', 'a', 't'], ['\xc3', '\xa9', ' ', 'c', 'a', 't'], .ctr⟩
      (by decide) .refl (by decide)
  have hstops : Stops slash ['\xc3', '\xa9', ' ', 'c', 'a', 't'] :=
    (stops_of_next (by decide) fun h => absurd h (by decide)).slash
  exact absurd (hskips.eq_of_stops hstops) (by decide)

end Cs214.Tokenizer
