import Cs214.Tokenizer.Pointer
import Cs214.Tokenizer.Progress

/-!
# The cursor stays in the string

The functions on memory do what the functions on the rest of the string do, and fault nowhere
else: for each of them there is a simulation (`Simulates`) with `At`, which says that the
position of the cursor has that rest in front of it. What follows for a call is `Inside`, and for
the calls of a run `Keeps`.
-/

namespace Cs214.Tokenizer.Pointer

variable {ts cur : CString} {v : Variant} {l : Tokenizer.Scan} {s : Scan} {p : Char → Bool}
  {c d : Char} {i n fuel : ℕ} {tk : TokenizerT}

/-! ### Reads and steps -/

/-- **The characters and the NUL** of the string can be read, and nothing else. -/
theorem isSome_derefAt : (derefAt ts i).isSome ↔ i ≤ ts.length := isSome_peek

/-- The cursor reads the character that it points at. -/
private theorem derefAt_eq (h : Points ts cur i) : derefAt ts i = some (deref cur) := h.peek

/-- Looking one character ahead. -/
private theorem derefAt_succ (h : Points ts cur i) (hnext : derefNext cur = some c) :
    derefAt ts (i + 1) = some c := by
  cases cur with
  | nil => cases hnext
  | cons d cur =>
    rw [← hnext]
    exact derefAt_eq h.tail

/-- The cursor may go behind a character. -/
private theorem advance_one (h : Points ts (c :: cur) i) :
    advance ts i 1 = some (i + 1) := if_pos h.lt

private theorem advance_two (h : Points ts (c :: d :: cur) i) : advance ts i 2 = some (i + 2) :=
  if_pos h.tail.lt

/-- **The cursor in memory** stands where the cursor of the scan does. -/
structure At (ts : CString) (l : Tokenizer.Scan) (s : Scan) : Prop where
  points : Points ts l.curPos s.curPos
  length : l.length = s.length

/-- The cursor of a scan reads its character. -/
private theorem At.derefAt (h : At ts l s) : derefAt ts s.curPos = some (deref l.curPos) :=
  derefAt_eq h.points

private theorem addCurCharToToken_cons (h : At ts ⟨c :: cur, n⟩ s) :
    addCurCharToToken ts s = some ⟨s.curPos + 1, s.length + 1⟩ := by
  rw [addCurCharToToken, advance_one h.points]
  rfl

/-- Behind a character the two scans are at one place again. -/
private theorem At.tail (h : At ts ⟨c :: cur, n⟩ s) :
    At ts ⟨cur, n + 1⟩ ⟨s.curPos + 1, s.length + 1⟩ where
  points := h.points.tail
  length := congrArg (· + 1) h.length

private theorem addCurCharToToken_simulates (h : At ts l s) :
    Simulates (At ts) (Tokenizer.addCurCharToToken l) (addCurCharToToken ts s) := by
  obtain ⟨cur, n⟩ := l
  cases cur with
  | nil => exact .fault _ _
  | cons c cur =>
    rw [addCurCharToToken_cons h]
    exact .result h.tail

/-- **The loops** end in front of the NUL, if not before. -/
theorem addWhile_simulates (h : At ts ⟨cur, n⟩ s) (hfuel : cur.length < fuel) :
    Simulates (At ts) (Tokenizer.addWhile p cur n) (addWhile ts p fuel s) := by
  refine Points.loop (P := fun fuel cur i => ∀ {n s}, At ts ⟨cur, n⟩ s → s.curPos = i →
    Simulates (At ts) (Tokenizer.addWhile p cur n) (addWhile ts p fuel s))
    ?_ ?_ h.points hfuel h rfl
  · intro fuel i _ n s h _
    rw [Tokenizer.addWhile, addWhile]
    refine .read h.derefAt ?_
    exact .ite (.fault _ _) (.result h)
  · rintro fuel c cur _ _ ih n s h rfl
    rw [Tokenizer.addWhile, addWhile]
    refine .read h.derefAt (.ite ?_ (.result h))
    exact .read (addCurCharToToken_cons h) (ih h.tail rfl)

private theorem Scan.addWhile_simulates (h : At ts l s) (p : Char → Bool) :
    Simulates (At ts) (l.addWhile p) (s.addWhile ts p) :=
  Pointer.addWhile_simulates h h.points.length_lt

/-! ### Numbers and words -/

/-- The same token type, and the same scan behind the token. -/
structure TokenAt (ts : CString) (r : TokenT × Tokenizer.Scan) (r' : TokenT × Scan) : Prop where
  type : r.1 = r'.1
  scan : At ts r.2 r'.2

/-- The functions that form a token, one after the other. -/
private theorem formFloatWithExpToken_simulates (h : At ts l s) :
    Simulates (TokenAt ts) (Tokenizer.formFloatWithExpToken l) (formFloatWithExpToken ts s) := by
  refine (addCurCharToToken_simulates h).bind fun l s h => .read h.derefAt (.ite ?_ (.ite ?_ ?_))
  · refine (addCurCharToToken_simulates h).bind fun l s h => .read h.derefAt (.ite ?_ ?_)
    · refine (addCurCharToToken_simulates h).bind fun l s h => ?_
      refine (Scan.addWhile_simulates h isdigit).bind fun l s h => ?_
      exact .result ⟨rfl, h⟩
    · exact .result ⟨rfl, h⟩
  · refine (Scan.addWhile_simulates h isdigit).bind fun l s h => ?_
    exact .result ⟨rfl, h⟩
  · exact .result ⟨rfl, h⟩

private theorem formFloatToken_simulates (h : At ts l s) :
    Simulates (TokenAt ts) (Tokenizer.formFloatToken l) (formFloatToken ts s) := by
  refine (addCurCharToToken_simulates h).bind fun l s h => ?_
  refine (Scan.addWhile_simulates h isdigit).bind fun l s h => .read h.derefAt (.ite ?_ ?_)
  · exact formFloatWithExpToken_simulates h
  · exact .result ⟨rfl, h⟩

private theorem formDecimalToken_simulates (h : At ts l s) :
    Simulates (TokenAt ts) (Tokenizer.formDecimalToken l) (formDecimalToken ts s) := by
  refine (Scan.addWhile_simulates h isdigit).bind fun l s h =>
    .read h.derefAt (.ite ?_ (.ite ?_ ?_))
  · exact formFloatToken_simulates h
  · exact formFloatWithExpToken_simulates h
  · exact .result ⟨rfl, h⟩

private theorem formWordToken_simulates (v : Variant) (h : At ts l s) :
    Simulates (TokenAt ts) (Tokenizer.formWordToken v l) (formWordToken ts v s) := by
  refine (addCurCharToToken_simulates h).bind fun l s h => ?_
  refine (Scan.addWhile_simulates h v.wordPart).bind fun l s h => ?_
  exact .result ⟨rfl, h⟩

private theorem formHexToken_simulates (h : At ts l s) :
    Simulates (TokenAt ts) (Tokenizer.formHexToken l) (formHexToken ts s) := by
  refine (addCurCharToToken_simulates h).bind fun l s h => .read h.derefAt (.ite ?_ ?_)
  · refine (addCurCharToToken_simulates h).bind fun l s h => ?_
    refine (Scan.addWhile_simulates h isxdigit).bind fun l s h => ?_
    exact .result ⟨rfl, h⟩
  · exact .result ⟨rfl, h⟩

private theorem formOctalToken_simulates (h : At ts l s) :
    Simulates (TokenAt ts) (Tokenizer.formOctalToken l) (formOctalToken ts s) := by
  refine (addCurCharToToken_simulates h).bind fun l s h =>
    .read h.derefAt (.ite ?_ (.ite ?_ (.ite ?_ ?_)))
  · exact formHexToken_simulates h
  · refine (addCurCharToToken_simulates h).bind fun l s h => ?_
    refine (Scan.addWhile_simulates h isodigit).bind fun l s h =>
      .read h.derefAt (.ite ?_ (.ite ?_ ?_))
    · exact formDecimalToken_simulates h
    · exact formFloatToken_simulates h
    · exact .result ⟨rfl, h⟩
  · exact formFloatToken_simulates h
  · exact .result ⟨rfl, h⟩

private theorem formNextControlToken_simulates (v : Variant) (h : At ts l s) :
    Simulates (TokenAt ts) (Tokenizer.formNextControlToken v l) (formNextControlToken ts v s) := by
  rw [Tokenizer.formNextControlToken, formNextControlToken]
  cases v.control with
  | none => exact .fault _ _
  | some t =>
    refine (addCurCharToToken_simulates h).bind fun l s h => ?_
    exact .result ⟨rfl, h⟩

/-! ### What is skipped -/

/-- **White space** ends in front of the NUL, if not before. -/
theorem skipSpace_spec (h : Points ts cur i) (hfuel : cur.length < fuel) :
    ∃ j, skipSpace ts fuel i = some j ∧ Points ts (cur.dropWhile isspace) j := by
  refine Points.loop (P := fun fuel cur i => ∃ j, skipSpace ts fuel i = some j ∧
    Points ts (cur.dropWhile isspace) j) ?_ ?_ h hfuel
  · intro fuel i h
    exact ⟨i, by simp [skipSpace, derefAt_eq h, deref, isspace, nul], h⟩
  · rintro fuel c cur i h ⟨j, hj, hpoints⟩
    by_cases hc : isspace c = true
    · rw [List.dropWhile_cons_of_pos hc]
      exact ⟨j, by simp [skipSpace, derefAt_eq h, deref_cons, hc, advance_one h, hj], hpoints⟩
    · rw [List.dropWhile_cons_of_neg hc]
      exact ⟨i, by simp [skipSpace, derefAt_eq h, deref_cons, hc], h⟩

/-- **A `//` comment** ends behind the next newline, or in front of the NUL. -/
theorem skipLine_spec (h : Points ts cur i) (hfuel : cur.length < fuel) :
    ∃ j, skipLine ts fuel i = some j ∧ Points ts (Tokenizer.skipLine cur) j := by
  refine Points.loop (P := fun fuel cur i => ∃ j, skipLine ts fuel i = some j ∧
    Points ts (Tokenizer.skipLine cur) j) ?_ ?_ h hfuel
  · intro fuel i h
    exact ⟨i, by simp [skipLine, derefAt_eq h, deref], h⟩
  · rintro fuel c cur i h ⟨j, hj, hpoints⟩
    have hread : derefAt ts i = some c := derefAt_eq h
    simp only [Tokenizer.skipLine, beq_iff_eq]
    split_ifs with hnul hline
    · exact ⟨i, by simp [skipLine, hread, hnul], h⟩
    · subst hline
      exact ⟨i + 1, by simp [skipLine, hread, hnul, advance_one h], h.tail⟩
    · exact ⟨j, by simp [skipLine, hread, hnul, hline, advance_one h, hj], hpoints⟩

/-- **A comment that `/*` opened** ends behind its `*/`, or in front of the NUL. -/
theorem skipBlock_spec (h : Points ts cur i) (hfuel : cur.length < fuel) :
    ∃ j, skipBlock ts fuel i = some j ∧ Points ts (Tokenizer.skipBlock cur) j := by
  refine Points.loop (P := fun fuel cur i => ∃ j, skipBlock ts fuel i = some j ∧
    Points ts (Tokenizer.skipBlock cur) j) ?_ ?_ h hfuel
  · intro fuel i h
    exact ⟨i, by simp [skipBlock, derefAt_eq h, deref, nul], h⟩
  · rintro fuel c cur i h ⟨j, hj, hpoints⟩
    have hread : derefAt ts i = some c := derefAt_eq h
    have hstep := advance_one h
    simp only [Tokenizer.skipBlock, beq_iff_eq]
    split_ifs with hstar hslash hnul
    · -- the end of the comment
      obtain ⟨rest, rfl⟩ := eq_cons_of_deref_eq hslash (by decide)
      have hread' : derefAt ts (i + 1) = some '/' := derefAt_eq h.tail
      exact ⟨i + 2, by simp [skipBlock, hread, hstar, hstep, hread', advance_one h.tail],
        h.tail.tail⟩
    · have hread' := derefAt_eq h.tail
      exact ⟨j, by simp [skipBlock, hread, hstar, hstep, hread', hslash, hj], hpoints⟩
    · subst hnul
      exact ⟨i, by simp [skipBlock, hread, hstar], h⟩
    · exact ⟨j, by simp [skipBlock, hread, hstar, hnul, hstep, hj], hpoints⟩

/-! ### Punctuation and comments -/

/-- The same token type, begin and scan. -/
structure FormedAt (ts : CString) (f : Tokenizer.Formed) (f' : Formed) : Prop where
  type : f.type = f'.type
  begin : Points ts f.begin f'.begin
  scan : At ts f.scan f'.scan

section Punc

variable {next : CString → Option Tokenizer.Formed} {next' : ℕ → Option Formed} {begin : CString}
  {begin' : ℕ}

/-- The cases of `formPuncToken`, one after the other. -/
private theorem caseAssign_simulates (hbegin : Points ts begin begin') (h : At ts l s) :
    Simulates (FormedAt ts) (Tokenizer.caseAssign begin l) (caseAssign ts begin' s) := by
  refine (addCurCharToToken_simulates h).bind fun l s h => .read h.derefAt (.ite ?_ ?_)
  · refine (addCurCharToToken_simulates h).bind fun l s h => ?_
    exact .result ⟨rfl, hbegin, h⟩
  · exact .result ⟨rfl, hbegin, h⟩

/-- Looking ahead. -/
private theorem derefNext_simulates (h : At ts l s) :
    Simulates (fun c c' => c = c' ∧ derefNext l.curPos = some c) (derefNext l.curPos)
      (derefAt ts (s.curPos + 1)) :=
  fun c hc => ⟨c, derefAt_succ h.points hc, rfl, hc⟩

/-- Behind the two characters that open a comment. -/
private theorem advance_comment (h : At ts l s) (hnext : derefNext l.curPos = some c)
    (hc : c ≠ nul) :
    advance ts s.curPos 2 = some (s.curPos + 2) ∧ Points ts (l.curPos.drop 2) (s.curPos + 2) := by
  have hpoints := h.points
  generalize l.curPos = cur at hnext hpoints ⊢
  cases cur with
  | nil => cases hnext
  | cons d cur =>
    obtain ⟨rest, rfl⟩ := eq_cons_of_deref_eq (Option.some.inj hnext) hc
    exact ⟨advance_two hpoints, hpoints.tail.tail⟩

/-- **A comment**: its loop ends, and the next token is formed from there. -/
theorem caseComment_simulates (hbegin : Points ts begin begin') (h : At ts l s)
    (hnext : ∀ cur i, Points ts cur i → Simulates (FormedAt ts) (next cur) (next' i)) :
    Simulates (FormedAt ts) (Tokenizer.caseComment next begin l)
      (caseComment ts next' begin' s) := by
  refine (derefNext_simulates h).bind ?_
  rintro c _ ⟨rfl, hc⟩
  split_ifs with hline hblock
  · have hslash : c ≠ nul := by
      rw [beq_iff_eq.mp hline]
      decide
    obtain ⟨hadvance, hpoints⟩ := advance_comment h hc hslash
    obtain ⟨j, hj, hend⟩ := skipLine_spec hpoints hpoints.length_lt
    exact .read hadvance (.read hj (hnext _ _ hend))
  · have hstar : c ≠ nul := by
      rw [beq_iff_eq.mp hblock]
      decide
    obtain ⟨hadvance, hpoints⟩ := advance_comment h hc hstar
    obtain ⟨j, hj, hend⟩ := skipBlock_spec hpoints hpoints.length_lt
    exact .read hadvance (.read hj (hnext _ _ hend))
  · exact caseAssign_simulates hbegin h

/-- Two characters are taken. -/
private theorem addTwice_simulates (hbegin : Points ts begin begin') (h : At ts l s) (t : TokenT) :
    Simulates (FormedAt ts)
      (do
        let l ← Tokenizer.addCurCharToToken l
        let l ← Tokenizer.addCurCharToToken l
        return ⟨t, begin, l⟩)
      (do
        let s ← addCurCharToToken ts s
        let s ← addCurCharToToken ts s
        return ⟨t, begin', s⟩) := by
  refine (addCurCharToToken_simulates h).bind fun l s h => ?_
  refine (addCurCharToToken_simulates h).bind fun l s h => ?_
  exact .result ⟨rfl, hbegin, h⟩

private theorem caseRepeat_simulates (hbegin : Points ts begin begin') (h : At ts l s)
    (hnext : ∀ cur i, Points ts cur i → Simulates (FormedAt ts) (next cur) (next' i)) :
    Simulates (FormedAt ts) (Tokenizer.caseRepeat next begin l)
      (caseRepeat ts next' begin' s) := by
  refine (derefNext_simulates h).bind ?_
  rintro c _ ⟨rfl, -⟩
  refine .read h.derefAt (.ite ?_ ?_)
  · exact addTwice_simulates hbegin h .ope
  · exact caseComment_simulates hbegin h hnext

private theorem caseMinus_simulates (hbegin : Points ts begin begin') (h : At ts l s)
    (hnext : ∀ cur i, Points ts cur i → Simulates (FormedAt ts) (next cur) (next' i)) :
    Simulates (FormedAt ts) (Tokenizer.caseMinus next begin l)
      (caseMinus ts next' begin' s) := by
  refine (derefNext_simulates h).bind ?_
  rintro c _ ⟨rfl, -⟩
  refine .ite ?_ ?_
  · exact addTwice_simulates hbegin h .ope
  · exact caseRepeat_simulates hbegin h hnext

/-- **Looking back** at the character that has just been taken. -/
theorem derefPrev_succ (h : At ts l s) :
    derefPrev ts (s.curPos + 1) = some (deref l.curPos) :=
  h.derefAt

private theorem caseShift_simulates (hbegin : Points ts begin begin') (h : At ts l s) :
    Simulates (FormedAt ts) (Tokenizer.caseShift begin l) (caseShift ts begin' s) := by
  obtain ⟨cur, n⟩ := l
  cases cur with
  | nil => exact .fault _ _
  | cons c cur =>
    have hback := derefPrev_succ h
    refine .read (addCurCharToToken_cons h) (.read h.tail.derefAt (.ite ?_ ?_))
    · refine (addCurCharToToken_simulates h.tail).bind fun l s h => ?_
      exact .result ⟨rfl, hbegin, h⟩
    · refine .read hback (.ite ?_ ?_)
      · refine (addCurCharToToken_simulates h.tail).bind fun l s h =>
          .read h.derefAt (.ite ?_ ?_)
        · refine (addCurCharToToken_simulates h).bind fun l s h => ?_
          exact .result ⟨rfl, hbegin, h⟩
        · exact .result ⟨rfl, hbegin, h⟩
      · exact .result ⟨rfl, hbegin, h.tail⟩

private theorem casePoint_simulates (hbegin : Points ts begin begin') (h : At ts l s) :
    Simulates (FormedAt ts) (Tokenizer.casePoint begin l) (casePoint ts begin' s) := by
  refine (addCurCharToToken_simulates h).bind fun l s h => .read h.derefAt (.ite ?_ ?_)
  · exact (formFloatToken_simulates h).bind fun r r' hr => .result ⟨hr.type, hbegin, hr.scan⟩
  · exact .result ⟨rfl, hbegin, h⟩

private theorem caseDefault_simulates (hbegin : Points ts begin begin') (h : At ts l s) :
    Simulates (FormedAt ts) (Tokenizer.caseDefault begin l) (caseDefault ts begin' s) :=
  (addCurCharToToken_simulates h).bind fun _ _ h => .result ⟨rfl, hbegin, h⟩

/-- **Punctuation.** -/
theorem formPuncToken_simulates (hbegin : Points ts begin begin') (h : At ts l s)
    (hnext : ∀ cur i, Points ts cur i → Simulates (FormedAt ts) (next cur) (next' i)) :
    Simulates (FormedAt ts) (Tokenizer.formPuncToken next begin l)
      (formPuncToken ts next' begin' s) := by
  refine .read h.derefAt ?_
  rw [Tokenizer.formPuncToken]
  generalize deref l.curPos = c
  split
  · exact casePoint_simulates hbegin h
  · exact caseMinus_simulates hbegin h hnext
  · exact caseRepeat_simulates hbegin h hnext
  · exact caseRepeat_simulates hbegin h hnext
  · exact caseRepeat_simulates hbegin h hnext
  · exact caseComment_simulates hbegin h hnext
  · exact caseComment_simulates hbegin h hnext
  · exact caseComment_simulates hbegin h hnext
  · exact caseComment_simulates hbegin h hnext
  · exact caseAssign_simulates hbegin h
  · exact caseAssign_simulates hbegin h
  · exact caseShift_simulates hbegin h
  · exact caseShift_simulates hbegin h
  · -- the last case is so on both sides
    simpa only [*] using caseDefault_simulates hbegin h

end Punc

/-! ### The next token -/

/-- What the functions for numbers and words leave. -/
private theorem formed_simulates {x : Option (TokenT × Tokenizer.Scan)} {y : Option (TokenT × Scan)}
    (h : Simulates (TokenAt ts) x y) (hpoints : Points ts cur i) :
    Simulates (FormedAt ts) (x.map fun r => ⟨r.1, cur, r.2⟩) (y.map fun r => ⟨r.1, i, r.2⟩) :=
  h.map fun _ _ hr => ⟨hr.type, hpoints, hr.scan⟩

/-- **`formNextToken`**: a recursion that the rest of the string bounds ends in memory too. -/
theorem formNextToken_simulates (v : Variant) (h : Points ts cur i) (hn : n ≤ fuel) :
    Simulates (FormedAt ts) (Tokenizer.formNextToken v n cur) (formNextToken ts v fuel i) := by
  induction n generalizing cur i fuel with
  | zero => exact .fault _ _
  | succ n ih =>
    obtain ⟨fuel, rfl⟩ := Nat.exists_eq_add_one.mpr (Nat.zero_lt_of_lt hn)
    have hnext : ∀ cur i, Points ts cur i → Simulates (FormedAt ts)
        (Tokenizer.formNextToken v n cur) (formNextToken ts v fuel i) :=
      fun cur i h => ih h (Nat.le_of_succ_le_succ hn)
    obtain ⟨j, hj, hpoints⟩ := skipSpace_spec h h.length_lt
    have hat : At ts ⟨cur.dropWhile isspace, 0⟩ ⟨j, 0⟩ := ⟨hpoints, rfl⟩
    refine .read hj (.read (derefAt_eq hpoints)
      (.ite ?_ (.ite ?_ (.ite ?_ (.ite ?_ (.ite ?_ ?_))))))
    · exact formed_simulates (formOctalToken_simulates hat) hpoints
    · exact formed_simulates (formDecimalToken_simulates hat) hpoints
    · exact formed_simulates (formWordToken_simulates v hat) hpoints
    · exact formPuncToken_simulates hpoints hat hnext
    · exact formed_simulates (formNextControlToken_simulates v hat) hpoints
    · exact .result ⟨rfl, hpoints, hat⟩

/-- The result does not depend on the view of the string. -/
private theorem FormedAt.unique {f : Tokenizer.Formed} {f₁ f₂ : Formed} (h₁ : FormedAt ts f f₁)
    (h₂ : FormedAt ts f f₂) : f₁ = f₂ := by
  obtain ⟨t₁, b₁, c₁, n₁⟩ := f₁
  obtain ⟨t₂, b₂, c₂, n₂⟩ := f₂
  obtain rfl : t₁ = t₂ := h₁.type.symm.trans h₂.type
  obtain rfl : b₁ = b₂ := h₁.begin.unique h₂.begin
  obtain rfl : c₁ = c₂ := h₁.scan.points.unique h₂.scan.points
  obtain rfl : n₁ = n₂ := h₁.scan.length.symm.trans h₂.scan.length
  rfl

/-- **The next token is formed inside of the string**, however deep the recursion may go: it
begins at the cursor or behind, its length leads from there to the new cursor, and that is still
in the string. -/
structure Inside (ts : CString) (v : Variant) (i : ℕ) (f : Formed) : Prop where
  formed : ∀ fuel, ts.length < fuel → formNextToken ts v fuel i = some f
  begin : i ≤ f.begin
  length : f.begin + f.scan.length = f.scan.curPos
  curPos : f.scan.curPos ≤ ts.length

/-- From inside the string the next token is formed inside the string. -/
private theorem formNextToken_inside (hv : v.Total) (hi : i ≤ ts.length) :
    ∃ f, Inside ts v i f := by
  have h : Points ts (ts.drop i) i := ⟨hi, rfl⟩
  obtain ⟨l, hl, hsuffix, w, htakes⟩ := formNextToken_takes hv (Nat.lt_succ_self (ts.drop i).length)
  have hrun (fuel : ℕ) (hfuel : ts.length < fuel) :
      ∃ f, formNextToken ts v fuel i = some f ∧ FormedAt ts l f :=
    formNextToken_simulates v h (h.length_lt.trans_le hfuel) l hl
  obtain ⟨f, -, hf⟩ := hrun _ (Nat.lt_succ_self ts.length)
  have hbegin := hf.begin
  rw [show l.begin = w ++ l.scan.curPos from htakes.curPos] at hbegin
  refine ⟨f, fun fuel hfuel => ?_, ?_, ?_, hf.scan.points.le⟩
  · obtain ⟨f', hf', hat⟩ := hrun fuel hfuel
    rw [hf', hat.unique hf]
  · have hlength := h.length
    have hlength' := hf.begin.length
    have hle := hsuffix.length_le
    omega
  · rw [← hbegin.add_length hf.scan.points, ← hf.scan.length, htakes.length, Nat.zero_add]

/-! ### The calls of `TKGetNextToken` -/

/-- `strncpy` copies a piece of the string, in which there is no NUL. -/
private theorem strncpy_eq (hts : nul ∉ ts) (h : Points ts cur i) (n : ℕ) :
    strncpy ts i n = some (cur.take n) := by
  induction n generalizing cur i with
  | zero => rfl
  | succ n ih =>
    rw [strncpy, derefAt_eq h]
    cases cur with
    | nil => rfl
    | cons c cur =>
      have hc : c ≠ nul := by
        rintro rfl
        exact hts (List.mem_of_mem_drop (h.drop ▸ List.mem_cons_self))
      simp [deref_cons, hc, ih h.tail]

/-- **A call of `TKGetNextToken`**: NULL if the token is empty. -/
theorem tkGetNextToken_eq {f : Formed} (hts : nul ∉ tk.tokens)
    (hf : Inside tk.tokens v tk.curPos f) :
    tkGetNextToken v tk = some ({ tk with type := f.type, curPos := f.scan.curPos },
      if f.scan.length = 0 then none
      else some ((tk.tokens.drop f.begin).take f.scan.length)) := by
  have hlength := hf.length
  have hle := hf.curPos
  have hbegin : Points tk.tokens (tk.tokens.drop f.begin) f.begin := ⟨by omega, rfl⟩
  have hnul : deref ((tk.tokens.drop f.begin).take f.scan.length) = nul ↔ f.scan.length = 0 := by
    constructor
    · intro hderef
      by_contra hpos
      -- the token starts with a character of the string
      obtain ⟨n, hn⟩ := Nat.exists_eq_succ_of_ne_zero hpos
      have hlt : f.begin < tk.tokens.length := by omega
      rw [hn, List.drop_eq_getElem_cons hlt, List.take_succ_cons, deref_cons] at hderef
      exact hts (hderef ▸ List.getElem_mem hlt)
    · intro hzero
      rw [hzero, List.take_zero]
      rfl
  simp [tkGetNextToken, hf.formed _ (Nat.lt_succ_self _), strncpy_eq hts hbegin, hnul]

/-- **The same tokenizer.** -/
structure TokenizerAt (l : Tokenizer.TokenizerT) (tk : TokenizerT) : Prop where
  tokens : l.tokens = tk.tokens
  points : Points tk.tokens l.curPos tk.curPos
  type : l.type = tk.type

private theorem tokenizerAt_create (v : Variant) (ts : CString) :
    TokenizerAt (Tokenizer.tkCreate v ts) (tkCreate v ts) := ⟨rfl, .start ts, rfl⟩

/-- **`TKGetNextToken`** answers the same in memory. -/
theorem tkGetNextToken_simulates {l : Tokenizer.TokenizerT}
    (hts : nul ∉ tk.tokens) (h : TokenizerAt l tk) :
    Simulates (fun r r' => TokenizerAt r.1 r'.1 ∧ r'.1.tokens = tk.tokens ∧ r.2 = r'.2)
      (Tokenizer.tkGetNextToken v l) (tkGetNextToken v tk) := by
  refine (formNextToken_simulates v h.points h.points.length_lt).bind fun f f' hf => ?_
  refine .read (strncpy_eq hts hf.begin f'.scan.length) ?_
  rw [← hf.scan.length]
  exact .result ⟨⟨h.tokens, hf.scan.points, hf.type⟩, rfl, rfl⟩

/-! ### Runs -/

/-- **A call that keeps to the string**: the token it gives is what stands between the begin and
the new cursor, and that is not empty. -/
structure Keeps (ts : CString) (v : Variant) (e : Event TokenizerT Unit (Option CString))
    (f : Formed) : Prop where
  tokens : e.pre.tokens = ts ∧ e.post.tokens = ts
  inside : Inside ts v e.pre.curPos f
  curPos : e.post.curPos = f.scan.curPos
  token : ∀ token, e.out = some token → f.begin < e.post.curPos ∧
    token = (ts.drop f.begin).take (e.post.curPos - f.begin)

variable {tr : List (Event TokenizerT Unit (Option CString))}
  {e : Event TokenizerT Unit (Option CString)}

/-- A call from a cursor in the string is answered. -/
theorem isSome_tkGetNextToken (hv : v.Total) (hts : nul ∉ tk.tokens)
    (hi : tk.curPos ≤ tk.tokens.length) : (tkGetNextToken v tk).isSome := by
  obtain ⟨f, hf⟩ := formNextToken_inside hv hi
  rw [tkGetNextToken_eq hts hf]
  rfl

/-- One call keeps the cursor inside the string. -/
private theorem keeps_of_occurs (hv : v.Total) (hts : nul ∉ ts) (htokens : e.pre.tokens = ts)
    (hi : e.pre.curPos ≤ ts.length) (he : e.Occurs (machine v)) : ∃ f, Keeps ts v e f := by
  subst htokens
  obtain ⟨f, hf⟩ := formNextToken_inside hv hi
  have hstep : tkGetNextToken v e.pre = some (e.post, e.out) := he.step
  rw [tkGetNextToken_eq hts hf] at hstep
  obtain ⟨hpost, hout⟩ := Prod.mk.inj (Option.some.inj hstep)
  have hcurPos : e.post.curPos = f.scan.curPos := hpost ▸ rfl
  refine ⟨f, ⟨rfl, hpost ▸ rfl⟩, hf, hcurPos, fun token htoken => ?_⟩
  rw [← hout] at htoken
  have hlength := hf.length
  by_cases hzero : f.scan.length = 0
  · rw [if_pos hzero] at htoken
    cases htoken
  · rw [if_neg hzero] at htoken
    obtain rfl := Option.some.inj htoken
    refine ⟨by omega, ?_⟩
    rw [show e.post.curPos - f.begin = f.scan.length by omega]

/-- **The cursor stays in the string** over any calls. -/
theorem curPos_le_of_run (hv : v.Total) (hts : nul ∉ ts)
    (hr : Run (machine v) (tkCreate v ts) tr tk) : tk.tokens = ts ∧ tk.curPos ≤ ts.length := by
  refine hr.invariant (I := fun tk => tk.tokens = ts ∧ tk.curPos ≤ ts.length)
    ⟨rfl, Nat.zero_le _⟩ ?_
  rintro e ⟨htokens, hi⟩ he
  obtain ⟨f, hf⟩ := keeps_of_occurs hv hts htokens hi he
  exact ⟨hf.tokens.2, hf.curPos ▸ hf.inside.curPos⟩

/-- And so does every call of a run. -/
theorem keeps_of_run (hv : v.Total) (hts : nul ∉ ts)
    (hr : Run (machine v) (tkCreate v ts) tr tk) (he : e ∈ tr) : ∃ f, Keeps ts v e f := by
  obtain ⟨⟨tr₁, hr₁⟩, hocc⟩ := hr.occurs_of_mem he
  obtain ⟨htokens, hi⟩ := curPos_le_of_run hv hts hr₁
  exact keeps_of_occurs hv hts htokens hi hocc

/-- **Each token takes a character**: the cursor has passed as many characters as there were
tokens. -/
theorem length_le_curPos (hv : v.Total) (hts : nul ∉ ts)
    (hr : Run (machine v) (tkCreate v ts) tr tk) (htr : ∀ e ∈ tr, e.out.isSome) :
    tr.length ≤ tk.curPos := by
  induction hr with
  | nil => exact Nat.zero_le _
  | @snoc tr e hr he ih =>
    obtain ⟨htokens, hi⟩ := curPos_le_of_run hv hts hr
    obtain ⟨f, hf⟩ := keeps_of_occurs hv hts htokens hi he
    obtain ⟨token, htoken⟩ := Option.isSome_iff_exists.mp (htr e (by simp))
    have hlength := ih fun e he => htr e (List.mem_append_left _ he)
    have hlt := (hf.token token htoken).1
    have hbegin := hf.inside.begin
    rw [List.length_append, List.length_singleton]
    omega

/-! ### All tokens -/

/-- **The loop over the tokens** gives the same tokens in memory. -/
theorem tokensFrom_simulates {l : Tokenizer.TokenizerT} (hts : nul ∉ tk.tokens)
    (h : TokenizerAt l tk) (n : ℕ) :
    Simulates Eq (Tokenizer.tokensFrom v n l) (tokensFrom v n tk) := by
  induction n generalizing l tk with
  | zero => exact .fault _ _
  | succ n ih =>
    refine (tkGetNextToken_simulates hts h).bind ?_
    rintro ⟨l', token⟩ ⟨tk', _⟩ ⟨h', htokens, rfl⟩
    rw [← htokens] at hts
    cases token with
    | none => exact .result rfl
    | some token =>
      refine (ih hts h').bind ?_
      rintro rest _ rfl
      rw [tkGetType, h'.type]
      exact .result rfl

/-- **The tokens of a string** in memory; there are at most as many as characters. -/
theorem tokens_eq (hv : v.Total) (hts : nul ∉ ts) :
    ∃ l, tokens v ts = some l ∧ Tokenizer.tokens v ts = some l ∧ l.length ≤ ts.length := by
  obtain ⟨l, hl, -⟩ := tokens_spec hv ts
  obtain ⟨l', hl', rfl⟩ := tokensFrom_simulates hts (tokenizerAt_create v ts) (ts.length + 1) l hl
  exact ⟨l, hl', hl, tokensFrom_length_le hv hl⟩

end Cs214.Tokenizer.Pointer
