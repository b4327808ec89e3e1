import Cs214.Tokenizer.Number
import Mathlib.Data.List.TakeWhile

/-!
# Numeric literals

What the number functions make of a numeral that white space or the end of the string follows
(`Blank`). A numeral may pass through all of them: the octal function hands a number with an 8 or
9 in it to the decimal one, this a point to the floating one, and this an exponent to the last.

Two kinds of numerals are cut in two (`Cut`), since `formOctalToken` looks for a point, but not
for an exponent, behind octal digits, and for an 8 or 9 behind more than one digit only. All other
ones are taken as a whole, with their type (`tkGetNextToken_literal_iff`).
-/

namespace Cs214.Tokenizer

variable {v : Variant} {t : TokenT} {d f o r w x y rest : CString} {c e : Char} {n : ℕ}
  {p : Char → Bool} {tk tk' : TokenizerT} {g : Formed}

/-! ### Behind a numeral -/

/-- **White space or the end of the string.** -/
def Blank (rest : CString) : Prop := ∀ c ∈ rest.head?, isspace c = true

theorem Blank.nil : Blank [] := by simp [Blank]

theorem Blank.space (rest : CString) : Blank (' ' :: rest) := by simp [Blank, isspace]

/-- A class without white space and NUL ends in front of a blank. -/
theorem Blank.not_mem (h : Blank rest) (hnul : p nul = false)
    (hspace : ∀ c, isspace c = true → p c = false) : p (deref rest) = false := by
  cases rest with
  | nil => exact hnul
  | cons c rest => exact hspace c (h c rfl)

theorem not_isalnum_of_isspace (h : isspace c = true) : isalnum c = false := by
  rw [Bool.eq_false_iff, ne_eq, isalnum_iff]
  rw [isspace_iff] at h
  omega

private theorem not_isdigit_of_isspace (h : isspace c = true) : isdigit c = false := by
  have := not_isalnum_of_isspace h
  rw [isalnum, Bool.or_eq_false_iff] at this
  exact this.2

theorem Blank.isdigit (h : Blank rest) : isdigit (deref rest) = false :=
  h.not_mem (by decide) fun _ => not_isdigit_of_isspace

private theorem Blank.isodigit (h : Blank rest) : isodigit (deref rest) = false :=
  h.not_mem (by decide) fun _ hc => Bool.eq_false_iff.mpr fun ho => by
    simpa [not_isdigit_of_isspace hc] using isdigit_of_isodigit ho

theorem isalnum_of_isxdigit (h : isxdigit c = true) : isalnum c = true := by
  simp only [isxdigit, isdigit, Bool.or_eq_true, Bool.and_eq_true, decide_eq_true_eq, Char.le_def,
    UInt32.le_iff_toNat_le] at h
  rw [isalnum_iff]
  rcases h with (h | h) | h
  · exact .inl h
  · exact .inr (.inl ⟨h.1, h.2.trans (by decide)⟩)
  · exact .inr (.inr ⟨h.1, h.2.trans (by decide)⟩)

private theorem Blank.isxdigit (h : Blank rest) : isxdigit (deref rest) = false :=
  h.not_mem (by decide) fun _ hc => Bool.eq_false_iff.mpr fun hx => by
    simpa [not_isalnum_of_isspace hc] using isalnum_of_isxdigit hx

/-- A character of a class is not one outside of it. -/
theorem beq_eq_false_of_mem (hc : p c = true) (he : p e = false) : (c == e) = false := by
  refine beq_false_of_ne ?_
  rintro rfl
  rw [hc] at he
  cases he

/-- A character that is no white space does not stand behind. -/
theorem Blank.ne (h : Blank rest) (hc : c ≠ nul) (hspace : isspace c = false) :
    (deref rest == c) = false :=
  h.not_mem (p := (· == c)) (beq_false_of_ne hc.symm) fun _ hd => beq_eq_false_of_mem hd hspace

/-- **A loop** takes a piece of its class that something else follows. -/
theorem addWhile_append (hw : ∀ c ∈ w, p c = true) (hrest : p (deref rest) = false) (n : ℕ) :
    addWhile p (w ++ rest) n = some ⟨rest, n + w.length⟩ := by
  induction w generalizing n with
  | nil =>
    cases rest with
    | nil => simpa [addWhile, deref] using hrest
    | cons c rest =>
      have hc : p c = false := hrest
      simp [addWhile, hc]
  | cons c w ih =>
    obtain ⟨hc, hw⟩ := List.forall_mem_cons.mp hw
    rw [List.cons_append, addWhile, if_pos hc, ih hw, List.length_cons]
    congr 2
    omega

/-! ### Exponents -/

private theorem mem_expSign : x ∈ expSign ↔ ∃ e, (e == 'e' || e == 'E') = true ∧
    (x = [e] ∨ ∃ c, (c == '+' || c == '-') = true ∧ x = [e, c]) := by
  rw [expSign, Language.mem_mul]
  constructor
  · rintro ⟨_, ⟨e, rfl, he⟩, _, rfl | ⟨c, rfl, hc⟩, rfl⟩
    · exact ⟨e, he, .inl rfl⟩
    · exact ⟨e, he, .inr ⟨c, hc, rfl⟩⟩
  · rintro ⟨e, he, rfl | ⟨c, hc, rfl⟩⟩
    · exact expSign_of_letter he
    · exact expSign_of_sign he hc

/-- The exponent of a floating number, or the start of one without digits. -/
inductive Exponent : TokenT → CString → Prop
  | float {x : CString} (h : x ∈ exponent) : Exponent .float x
  | mal {x : CString} (h : x ∈ expSign) : Exponent .mal x

/-- An exponent starts with its letter. -/
private theorem Exponent.exists_cons (h : Exponent t x) :
    ∃ e u, x = e :: u ∧ (e == 'e' || e == 'E') = true := by
  cases h with
  | float h =>
    obtain ⟨s, hs, u, -, rfl⟩ := Language.mem_mul.mp h
    obtain ⟨e, he, rfl | ⟨c, -, rfl⟩⟩ := mem_expSign.mp hs
    · exact ⟨e, u, rfl, he⟩
    · exact ⟨e, c :: u, rfl, he⟩
  | mal h =>
    obtain ⟨e, he, rfl | ⟨c, -, rfl⟩⟩ := mem_expSign.mp h
    · exact ⟨e, [], rfl, he⟩
    · exact ⟨e, [c], rfl, he⟩

/-- A digit is no sign. -/
private theorem not_sign_of_isdigit (h : isdigit c = true) : (c == '+' || c == '-') = false := by
  rw [beq_eq_false_of_mem h (by decide), beq_eq_false_of_mem h (by decide)]
  rfl

private theorem some_scan_eq {m k : ℕ} (h : m = k) :
    some (t, (⟨rest, m⟩ : Scan)) = some (t, ⟨rest, k⟩) := by
  rw [h]

/-- **An exponent** in front of a blank. -/
theorem formFloatWithExpToken_eq (h : Exponent t x) (hb : Blank rest) (n : ℕ) :
    formFloatWithExpToken ⟨x ++ rest, n⟩ = some (t, ⟨rest, n + x.length⟩) := by
  have hplus : (deref rest == '+' || deref rest == '-') = false := by
    rw [hb.ne (by decide) (by decide), hb.ne (by decide) (by decide)]
    rfl
  cases h with
  | float h =>
    obtain ⟨s, hs, _, hds, rfl⟩ := Language.mem_mul.mp h
    obtain ⟨hne, hall⟩ := mem_digits.mp hds
    obtain ⟨d, ds, rfl⟩ := List.exists_cons_of_ne_nil hne
    obtain ⟨hd, hds⟩ := List.forall_mem_cons.mp hall
    obtain ⟨e, -, rfl | ⟨c, hc, rfl⟩⟩ := mem_expSign.mp hs
    · have hloop := addWhile_append hall hb.isdigit (n + 1)
      simp only [formFloatWithExpToken, List.cons_append, List.nil_append, addCurCharToToken_cons,
        Option.bind_eq_bind, Option.bind_some, deref_cons, not_sign_of_isdigit hd, hd, if_true,
        Bool.false_eq_true, if_false, Scan.addWhile] at hloop ⊢
      rw [hloop]
      exact some_scan_eq (by simp only [List.length_cons]; omega)
    · have hloop := addWhile_append hds hb.isdigit (n + 1 + 1 + 1)
      simp only [formFloatWithExpToken, List.cons_append, List.nil_append, addCurCharToToken_cons,
        Option.bind_eq_bind, Option.bind_some, deref_cons, hc, hd, if_true,
        Scan.addWhile] at hloop ⊢
      rw [hloop]
      exact some_scan_eq (by simp only [List.length_cons]; omega)
  | mal h =>
    obtain ⟨e, -, rfl | ⟨c, hc, rfl⟩⟩ := mem_expSign.mp h
    · simp only [formFloatWithExpToken, List.cons_append, List.nil_append, addCurCharToToken_cons,
        Option.bind_eq_bind, Option.bind_some, hplus, hb.isdigit, Bool.false_eq_true, if_false]
      rfl
    · simp only [formFloatWithExpToken, List.cons_append, List.nil_append, addCurCharToToken_cons,
        Option.bind_eq_bind, Option.bind_some, deref_cons, hc, hb.isdigit, if_true,
        Bool.false_eq_true, if_false]
      rfl

/-! ### Points -/

/-- What may stand behind the digits behind a point: nothing, or an exponent. -/
inductive OptExponent : TokenT → CString → Prop
  | none : OptExponent .float []
  | some {t : TokenT} {x : CString} (h : Exponent t x) : OptExponent t x

/-- No digit follows the digits. -/
private theorem OptExponent.isdigit (h : OptExponent t x) (hb : Blank rest) :
    isdigit (deref (x ++ rest)) = false := by
  cases h with
  | none => exact hb.isdigit
  | some h =>
    obtain ⟨e, u, rfl, he⟩ := h.exists_cons
    rw [Bool.or_eq_true, beq_iff_eq, beq_iff_eq] at he
    rcases he with rfl | rfl
    · rfl
    · rfl

/-- **A floating number** from its point, or from the first of its digits. -/
theorem formFloatToken_eq (hf : ∀ c ∈ f, isdigit c = true) (hx : OptExponent t x)
    (hb : Blank rest) (c : Char) (n : ℕ) :
    formFloatToken ⟨c :: (f ++ (x ++ rest)), n⟩ =
      some (t, ⟨rest, n + (c :: (f ++ x)).length⟩) := by
  have hloop := addWhile_append hf (hx.isdigit hb) (n + 1)
  simp only [formFloatToken, addCurCharToToken_cons, Option.bind_eq_bind, Option.bind_some,
    Scan.addWhile, hloop]
  cases hx with
  | none =>
    rw [List.nil_append, hb.ne (by decide) (by decide), hb.ne (by decide) (by decide)]
    exact some_scan_eq (by simp only [List.length_cons, List.append_nil]; omega)
  | some h =>
    obtain ⟨e, u, hxe, he⟩ := h.exists_cons
    rw [if_pos (by rw [hxe]; exact he), formFloatWithExpToken_eq h hb]
    exact some_scan_eq (by simp only [List.length_cons, List.length_append]; omega)

/-! ### Decimals -/

/-- What may stand behind the digits of a decimal that is a floating number. -/
inductive Tail : TokenT → CString → Prop
  | point {t : TokenT} {f x : CString} (hf : ∀ c ∈ f, isdigit c = true) (hx : OptExponent t x) :
      Tail t ('.' :: (f ++ x))
  | exponent {t : TokenT} {x : CString} (h : Exponent t x) : Tail t x

/-- No digit follows the digits. -/
private theorem Tail.isdigit (h : Tail t y) (hb : Blank rest) :
    isdigit (deref (y ++ rest)) = false := by
  cases h with
  | point => rfl
  | exponent h => exact (OptExponent.some h).isdigit hb

/-- **The decimal function** on a decimal. -/
theorem formDecimalToken_eq (hd : ∀ c ∈ d, isdigit c = true) (hb : Blank rest) (n : ℕ) :
    formDecimalToken ⟨d ++ rest, n⟩ = some (.dec, ⟨rest, n + d.length⟩) := by
  have hloop := addWhile_append hd hb.isdigit n
  simp only [formDecimalToken, Scan.addWhile, hloop, Option.bind_eq_bind, Option.bind_some,
    hb.ne (by decide : '.' ≠ nul) (by decide), hb.ne (by decide : 'e' ≠ nul) (by decide),
    hb.ne (by decide : 'E' ≠ nul) (by decide), Bool.or_false, Bool.false_eq_true, if_false]
  rfl

/-- The decimal function on a floating number. -/
private theorem formDecimalToken_tail (hd : ∀ c ∈ d, isdigit c = true) (hy : Tail t y)
    (hb : Blank rest)
    (n : ℕ) : formDecimalToken ⟨d ++ (y ++ rest), n⟩ =
      some (t, ⟨rest, n + (d ++ y).length⟩) := by
  have hloop := addWhile_append hd (hy.isdigit hb) n
  simp only [formDecimalToken, Scan.addWhile, hloop, Option.bind_eq_bind, Option.bind_some]
  cases hy with
  | @point f x hf hx =>
    rw [if_pos (by rfl), List.cons_append, List.append_assoc, formFloatToken_eq hf hx hb]
    exact some_scan_eq (by simp only [List.length_cons, List.length_append]; omega)
  | exponent h =>
    obtain ⟨e, u, hxe, he⟩ := h.exists_cons
    have hpoint : (deref (y ++ rest) == '.') = false := by
      rw [hxe, List.cons_append, deref_cons]
      rw [Bool.or_eq_true, beq_iff_eq, beq_iff_eq] at he
      rcases he with rfl | rfl
      · rfl
      · rfl
    rw [hpoint, if_neg (by decide), if_pos (by rw [hxe]; exact he),
      formFloatWithExpToken_eq h hb]
    exact some_scan_eq (by simp only [List.length_append]; omega)

/-- **The hexadecimal function**; without a digit the number is malformed. -/
theorem formHexToken_eq (hw : ∀ c ∈ w, isxdigit c = true) (hb : Blank rest) (c : Char) (n : ℕ) :
    formHexToken ⟨c :: (w ++ rest), n⟩ =
      some (if w = [] then .mal else .hex, ⟨rest, n + (c :: w).length⟩) := by
  simp only [formHexToken, addCurCharToToken_cons, Option.bind_eq_bind, Option.bind_some]
  cases w with
  | nil =>
    rw [List.nil_append, hb.isxdigit, if_neg (by decide), if_pos rfl]
    rfl
  | cons h w =>
    obtain ⟨hh, hw⟩ := List.forall_mem_cons.mp hw
    have hloop := addWhile_append hw hb.isxdigit (n + 1 + 1)
    rw [List.cons_append, deref_cons, if_pos hh, addCurCharToToken_cons]
    simp only [Scan.addWhile, hloop, Option.bind_some, List.cons_ne_nil, if_false]
    exact some_scan_eq (by simp only [List.length_cons]; omega)

/-! ### Octal numbers -/

/-- Where the octal function goes behind octal digits. -/
private theorem formOctalToken_digits (ho : ∀ c ∈ o, isodigit c = true) (hne : o ≠ [])
    (hr : isodigit (deref r) = false) (n : ℕ) :
    formOctalToken ⟨'0' :: (o ++ r), n⟩ =
      if '8' ≤ deref r && deref r ≤ '9' then formDecimalToken ⟨r, n + (1 + o.length)⟩
      else if deref r == '.' then formFloatToken ⟨r, n + (1 + o.length)⟩
      else some (.octal, ⟨r, n + (1 + o.length)⟩) := by
  obtain ⟨c, u, rfl⟩ := List.exists_cons_of_ne_nil hne
  obtain ⟨hc, hu⟩ := List.forall_mem_cons.mp ho
  have hx : (c == 'x' || c == 'X') = false := by
    rw [beq_eq_false_of_mem hc (by decide), beq_eq_false_of_mem hc (by decide)]
    rfl
  have hloop := addWhile_append hu hr (n + 1 + 1)
  have hlen : n + 1 + 1 + u.length = n + (1 + (c :: u).length) := by
    rw [List.length_cons]
    omega
  simp only [formOctalToken, addCurCharToToken_cons, Option.bind_eq_bind, Option.bind_some,
    List.cons_append, deref_cons, hx, hc, Scan.addWhile, hloop, if_true, Bool.false_eq_true,
    if_false, hlen]
  rfl

/-- Where the octal function goes behind a zero. -/
private theorem formOctalToken_zero (hx : (deref r == 'x' || deref r == 'X') = false)
    (ho : isodigit (deref r) = false) (n : ℕ) :
    formOctalToken ⟨'0' :: r, n⟩ =
      if deref r == '.' then formFloatToken ⟨r, n + 1⟩ else some (.dec, ⟨r, n + 1⟩) := by
  simp only [formOctalToken, addCurCharToToken_cons, Option.bind_eq_bind, Option.bind_some, hx, ho,
    Bool.false_eq_true, if_false]
  rfl

/-- A number that starts with a zero and an `x`. -/
private theorem formOctalToken_hex (hc : (c == 'x' || c == 'X') = true)
    (hw : ∀ c ∈ w, isxdigit c = true) (hb : Blank rest) (n : ℕ) :
    formOctalToken ⟨'0' :: c :: (w ++ rest), n⟩ =
      some (if w = [] then .mal else .hex, ⟨rest, n + ('0' :: c :: w).length⟩) := by
  simp only [formOctalToken, addCurCharToToken_cons, Option.bind_eq_bind, Option.bind_some,
    deref_cons, hc, if_true, formHexToken_eq hw hb]
  exact some_scan_eq (by simp only [List.length_cons]; omega)

/-- **The numerals that are cut**: an 8 or 9 right behind a zero, and an exponent right behind
octal digits that start with a zero. -/
inductive Cut : CString → Prop
  | digit {d : Char} {u : CString} (hd : d = '8' ∨ d = '9') : Cut ('0' :: d :: u)
  | exponent {o u : CString} {e : Char} (ho : ∀ c ∈ o, isodigit c = true)
      (he : e = 'e' ∨ e = 'E') : Cut ('0' :: (o ++ e :: u))

private theorem Cut.exists_zero (h : Cut w) : ∃ u, w = '0' :: u := by
  cases h with
  | digit => exact ⟨_, rfl⟩
  | exponent => exact ⟨_, rfl⟩

/-- **The octal function stops inside** of these numerals. -/
theorem Cut.formOctalToken (h : Cut w) (rest : CString) (n : ℕ) :
    ∃ t s, formOctalToken ⟨w ++ rest, n⟩ = some (t, s) ∧ s.length < n + w.length := by
  cases h with
  | @digit d u hd =>
    refine ⟨.dec, ⟨d :: (u ++ rest), n + 1⟩, ?_, by simp⟩
    rcases hd with rfl | rfl
    · exact formOctalToken_zero rfl rfl n
    · exact formOctalToken_zero rfl rfl n
  | @exponent o u e ho he =>
    rcases o with _ | ⟨c, o⟩
    · refine ⟨.dec, ⟨e :: (u ++ rest), n + 1⟩, ?_, by simp⟩
      rcases he with rfl | rfl
      · exact formOctalToken_zero rfl rfl n
      · exact formOctalToken_zero rfl rfl n
    · refine ⟨.octal, ⟨e :: (u ++ rest), n + (1 + (c :: o).length)⟩, ?_, ?_⟩
      · have heq : '0' :: ((c :: o) ++ e :: u) ++ rest =
            '0' :: ((c :: o) ++ e :: (u ++ rest)) := by simp
        rw [heq]
        rcases he with rfl | rfl
        · exact formOctalToken_digits (r := 'e' :: (u ++ rest)) ho (List.cons_ne_nil c o) rfl n
        · exact formOctalToken_digits (r := 'E' :: (u ++ rest)) ho (List.cons_ne_nil c o) rfl n
      · simp only [List.length_cons, List.length_append]
        omega

/-! ### The forms of a numeral -/

/-- **The forms of a numeral**, by the functions that read it. -/
inductive Form : TokenT → CString → Prop
  | octal {w : CString} (h : w ∈ Tokenizer.octal) : Form .octal w
  | dec {w : CString} (h : w ∈ digits - Tokenizer.octal) : Form .dec w
  | hex {c : Char} {w : CString} (hc : (c == 'x' || c == 'X') = true)
      (hw : ∀ c ∈ w, isxdigit c = true) : Form (if w = [] then .mal else .hex) ('0' :: c :: w)
  | tail {t : TokenT} {d y : CString} (hd : d ∈ digits) (hy : Tail t y) : Form t (d ++ y)
  | point {t : TokenT} {f x : CString} (hf : f ∈ digits) (hx : OptExponent t x) :
      Form t ('.' :: (f ++ x))

private theorem exists_of_mem_pointed (h : w ∈ pointed) :
    (∃ d f, d ∈ digits ∧ (∀ c ∈ f, isdigit c = true) ∧ w = d ++ '.' :: f) ∨
      ∃ f, f ∈ digits ∧ w = '.' :: f := by
  rcases (Language.mem_add _ _ _).mp h with h | h
  · obtain ⟨_, ⟨d, hd, _, ⟨c, rfl, hc⟩, rfl⟩, f, hf, rfl⟩ := h
    obtain rfl := beq_iff_eq.mp hc
    exact .inl ⟨d, f, hd, mem_many.mp hf, by simp⟩
  · obtain ⟨_, ⟨c, rfl, hc⟩, f, hf, rfl⟩ := h
    obtain rfl := beq_iff_eq.mp hc
    exact .inr ⟨f, hf, rfl⟩

/-- A number with a point, with or without an exponent. -/
private theorem Form.of_pointed (hw : w ∈ pointed) (hx : OptExponent t x) : Form t (w ++ x) := by
  rcases exists_of_mem_pointed hw with ⟨d, f, hd, hf, rfl⟩ | ⟨f, hf, rfl⟩
  · rw [List.append_assoc, List.cons_append]
    exact .tail hd (.point hf hx)
  · exact .point hf hx

/-- **Every numeral has a form.** -/
theorem Numeral.form (h : Numeral t w rest) : Form t w := by
  cases h with
  | octal h => exact .octal h
  | dec h => exact .dec h
  | hex h =>
    obtain ⟨_, ⟨_, ⟨z, rfl, hz⟩, _, ⟨c, rfl, hc⟩, rfl⟩, u, hu, rfl⟩ := Language.mem_mul.mp h
    obtain rfl := beq_iff_eq.mp hz
    obtain ⟨hne, hall⟩ := mem_many1.mp hu
    have hform := Form.hex hc hall
    rwa [if_neg hne] at hform
  | float h =>
    rcases (Language.mem_add _ _ _).mp h with h | h
    · obtain ⟨w, hw, x, hx, rfl⟩ := Language.mem_mul.mp h
      rcases hx with rfl | hx
      · exact .of_pointed hw .none
      · exact .of_pointed hw (.some (.float hx))
    · obtain ⟨d, hd, x, hx, rfl⟩ := Language.mem_mul.mp h
      exact .tail hd (.exponent (.float hx))
  | malHex h =>
    obtain ⟨_, ⟨z, rfl, hz⟩, _, ⟨c, rfl, hc⟩, rfl⟩ := Language.mem_mul.mp h
    obtain rfl := beq_iff_eq.mp hz
    exact Form.hex (w := []) hc (by simp)
  | malExp h =>
    obtain ⟨m, hm, x, hx, rfl⟩ := Language.mem_mul.mp h
    rcases hm with hm | hm
    · exact .tail hm (.exponent (.mal hx))
    · exact .of_pointed hm (.some (.mal hx))

/-- A digit that is not octal. -/
private theorem eq_of_not_isodigit (hc : isdigit c = true) (ho : isodigit c = false) :
    c = '8' ∨ c = '9' := by
  rw [isdigit_iff] at hc
  rw [Bool.eq_false_iff, ne_eq, isodigit_iff] at ho
  have h8 : c = '8' ↔ c.toNat = 56 := (Char.toNat_inj (d := '8')).symm
  have h9 : c = '9' ↔ c.toNat = 57 := (Char.toNat_inj (d := '9')).symm
  rw [h8, h9]
  omega

/-- Digits are octal ones up to the first 8 or 9. -/
private theorem exists_octal_append (hd : ∀ c ∈ d, isdigit c = true) :
    ∃ o z, d = o ++ z ∧ (∀ c ∈ o, isodigit c = true) ∧
      (z = [] ∨ ∃ c u, z = c :: u ∧ (c = '8' ∨ c = '9')) := by
  refine ⟨d.takeWhile isodigit, d.dropWhile isodigit, by simp, fun c => List.mem_takeWhile_imp, ?_⟩
  have hhead := List.head?_dropWhile_not isodigit d
  have hsub : ∀ c ∈ d.dropWhile isodigit, isdigit c = true := fun c hc =>
    hd c ((List.dropWhile_sublist _).mem hc)
  cases hz : d.dropWhile isodigit with
  | nil => exact .inl rfl
  | cons c u =>
    rw [hz] at hhead hsub
    exact .inr ⟨c, u, rfl, eq_of_not_isodigit (hsub c List.mem_cons_self) hhead⟩

/-! ### Numerals in front of a blank -/

/-- Octal digits and then an 8 or 9: the octal function hands over to the decimal one. -/
private theorem formOctalToken_eight (ho : ∀ c ∈ o, isodigit c = true) (hne : o ≠ [])
    (hc : c = '8' ∨ c = '9') (r : CString) (n : ℕ) :
    formOctalToken ⟨'0' :: (o ++ c :: r), n⟩ = formDecimalToken ⟨c :: r, n + (1 + o.length)⟩ := by
  have hnot : isodigit (deref (c :: r)) = false := by
    rcases hc with rfl | rfl
    · rfl
    · rfl
  have height : ('8' ≤ deref (c :: r) && deref (c :: r) ≤ '9') = true := by
    rcases hc with rfl | rfl
    · rfl
    · rfl
  rw [formOctalToken_digits ho hne hnot, if_pos height]

private theorem Blank.not_eight (h : Blank rest) :
    ('8' ≤ deref rest && deref rest ≤ '9') = false :=
  h.not_mem (p := fun c => '8' ≤ c && c ≤ '9') (by decide) fun c hc => by
    rw [Bool.eq_false_iff, ne_eq, Bool.and_eq_true, decide_eq_true_eq, decide_eq_true_eq]
    rintro ⟨h8, h9⟩
    have hdigit : Tokenizer.isdigit c = true := by
      simp only [Tokenizer.isdigit, Bool.and_eq_true, decide_eq_true_eq]
      exact ⟨Char.le_trans (by decide) h8, h9⟩
    rw [not_isdigit_of_isspace hc] at hdigit
    cases hdigit

private theorem formOctalToken_octal (ho : ∀ c ∈ o, isodigit c = true) (hne : o ≠ [])
    (hb : Blank rest)
    (n : ℕ) : formOctalToken ⟨'0' :: (o ++ rest), n⟩ =
      some (.octal, ⟨rest, n + ('0' :: o).length⟩) := by
  rw [formOctalToken_digits ho hne hb.isodigit, hb.not_eight, hb.ne (by decide) (by decide)]
  exact some_scan_eq (by rw [List.length_cons]; omega)

/-- Digits behind a zero that are not all octal. -/
private theorem formOctalToken_dec (hd : ∀ c ∈ d, isdigit c = true) (hnot : '0' :: d ∉ octal)
    (hcut : ¬Cut ('0' :: d)) (hb : Blank rest) (n : ℕ) :
    formOctalToken ⟨'0' :: (d ++ rest), n⟩ =
      some (.dec, ⟨rest, n + ('0' :: d).length⟩) := by
  obtain ⟨o, z, rfl, ho, hz⟩ := exists_octal_append hd
  by_cases hne : o = []
  · subst hne
    rcases hz with rfl | ⟨c, u, rfl, hc⟩
    · -- a zero alone
      rw [List.nil_append, List.nil_append, formOctalToken_zero ?_ hb.isodigit,
        hb.ne (by decide) (by decide)]
      · rfl
      · rw [hb.ne (by decide) (by decide), hb.ne (by decide) (by decide)]
        rfl
    · exact absurd (.digit hc) hcut
  · rcases hz with rfl | ⟨c, u, rfl, hc⟩
    · rw [List.append_nil] at hnot
      exact absurd (mem_octal.mpr ⟨o, rfl, hne, ho⟩) hnot
    · have hcu : ∀ d ∈ c :: u, isdigit d = true := fun d hd' => hd d (List.mem_append_right o hd')
      rw [List.append_assoc, List.cons_append, formOctalToken_eight ho hne hc,
        ← List.cons_append, formDecimalToken_eq hcu hb]
      exact some_scan_eq (by simp only [List.length_cons, List.length_append]; omega)

/-- Digits behind a zero with a point or an exponent behind them. -/
private theorem formOctalToken_tail (hd : ∀ c ∈ d, isdigit c = true) (hy : Tail t y)
    (hcut : ¬Cut ('0' :: (d ++ y))) (hb : Blank rest) (n : ℕ) :
    formOctalToken ⟨'0' :: (d ++ (y ++ rest)), n⟩ =
      some (t, ⟨rest, n + ('0' :: (d ++ y)).length⟩) := by
  obtain ⟨o, z, rfl, ho, rfl | ⟨c, u, rfl, hc⟩⟩ := exists_octal_append hd
  · rw [List.append_nil] at hcut ⊢
    cases hy with
    | @point f x hf hx =>
      have hdot : (deref ('.' :: (f ++ x) ++ rest) == '.') = true := rfl
      by_cases hne : o = []
      · subst hne
        rw [List.nil_append, formOctalToken_zero rfl rfl, if_pos hdot, List.cons_append,
          List.append_assoc, formFloatToken_eq hf hx hb]
        exact some_scan_eq (by
          simp only [List.length_cons, List.length_append, List.length_nil]
          omega)
      · have height : ('8' ≤ deref ('.' :: (f ++ x) ++ rest) &&
            deref ('.' :: (f ++ x) ++ rest) ≤ '9') = false := rfl
        rw [formOctalToken_digits ho hne rfl, height, if_neg (by decide), if_pos hdot,
          List.cons_append, List.append_assoc, formFloatToken_eq hf hx hb]
        exact some_scan_eq (by simp only [List.length_cons, List.length_append]; omega)
    | exponent h =>
      obtain ⟨e, u, rfl, he⟩ := h.exists_cons
      rw [Bool.or_eq_true, beq_iff_eq, beq_iff_eq] at he
      exact absurd (.exponent ho he) hcut
  · by_cases hne : o = []
    · subst hne
      exact absurd (.digit hc) hcut
    · have hcu : ∀ d ∈ c :: u, isdigit d = true := fun d hd' => hd d (List.mem_append_right o hd')
      rw [List.append_assoc, List.cons_append, formOctalToken_eight ho hne hc,
        ← List.cons_append, formDecimalToken_tail hcu hy hb]
      exact some_scan_eq (by simp only [List.length_cons, List.length_append]; omega)

/-- **A numeral that starts with a zero** is read as a whole, unless it is cut. -/
theorem formOctalToken_eq (h : Form t ('0' :: w)) (hcut : ¬Cut ('0' :: w)) (hb : Blank rest)
    (n : ℕ) :
    formOctalToken ⟨'0' :: (w ++ rest), n⟩ = some (t, ⟨rest, n + ('0' :: w).length⟩) := by
  generalize hz : '0' :: w = z at h
  cases h with
  | octal h =>
    obtain ⟨u, hu, hne, ho⟩ := mem_octal.mp h
    obtain ⟨-, rfl⟩ := List.cons.inj (hz.trans hu)
    rw [← hz]
    exact formOctalToken_octal ho hne hb n
  | dec h =>
    subst hz
    exact formOctalToken_dec (List.forall_mem_cons.mp (mem_digits.mp h.1).2).2 h.2 hcut hb n
  | hex hc hw =>
    obtain ⟨-, rfl⟩ := List.cons.inj hz
    exact formOctalToken_hex hc hw hb n
  | @tail t d y hd hy =>
    obtain ⟨hne, hall⟩ := mem_digits.mp hd
    obtain ⟨c, d, rfl⟩ := List.exists_cons_of_ne_nil hne
    obtain ⟨rfl, rfl⟩ := List.cons.inj hz
    have htail := formOctalToken_tail (List.forall_mem_cons.mp hall).2 hy hcut hb n
    rwa [← List.append_assoc] at htail
  | point => cases hz

/-- A numeral that starts with another digit. -/
private theorem formDecimalToken_form (h : Form t (c :: w)) (hc : isdigit c = true)
    (hzero : c ≠ '0')
    (hb : Blank rest) (n : ℕ) :
    formDecimalToken ⟨c :: w ++ rest, n⟩ = some (t, ⟨rest, n + (c :: w).length⟩) := by
  generalize hz : c :: w = z at h
  cases h with
  | octal h =>
    obtain ⟨u, hu, -⟩ := mem_octal.mp h
    exact absurd (List.cons.inj (hz.trans hu)).1 hzero
  | dec h => exact formDecimalToken_eq (mem_digits.mp h.1).2 hb n
  | hex => exact absurd (List.cons.inj hz).1 hzero
  | @tail t d y hd hy =>
    have htail := formDecimalToken_tail (mem_digits.mp hd).2 hy hb n
    rwa [← List.append_assoc] at htail
  | point =>
    rw [(List.cons.inj hz).1] at hc
    exact absurd hc (by decide)

/-- A numeral that starts with a point has digits behind it. -/
theorem Form.of_point (h : Form t ('.' :: w)) :
    ∃ d f x, w = d :: f ++ x ∧ isdigit d = true ∧ (∀ c ∈ f, isdigit c = true) ∧
      OptExponent t x := by
  have hfirst {d : CString} (hd : d ∈ digits) (y : CString) (heq : '.' :: w = d ++ y) : False := by
    obtain ⟨hne, hall⟩ := mem_digits.mp hd
    obtain ⟨c, d, rfl⟩ := List.exists_cons_of_ne_nil hne
    have hc := hall c List.mem_cons_self
    rw [← (List.cons.inj heq).1] at hc
    exact absurd hc (by decide)
  generalize hz : '.' :: w = z at h
  cases h with
  | octal h =>
    obtain ⟨u, hu, -⟩ := mem_octal.mp h
    exact absurd (List.cons.inj (hz.trans hu)).1 (by decide)
  | dec h => exact (hfirst h.1 [] (by rw [hz, List.append_nil])).elim
  | hex => exact absurd (List.cons.inj hz).1 (by decide)
  | tail hd => exact (hfirst hd _ hz).elim
  | point hf hx =>
    obtain ⟨-, rfl⟩ := List.cons.inj hz
    obtain ⟨hne, hall⟩ := mem_digits.mp hf
    obtain ⟨d, f, rfl⟩ := List.exists_cons_of_ne_nil hne
    obtain ⟨hd, hf⟩ := List.forall_mem_cons.mp hall
    exact ⟨d, f, _, rfl, hd, hf, hx⟩

/-- A numeral that starts with a point. -/
private theorem casePoint_form (h : Form t ('.' :: w)) (hb : Blank rest) (begin : CString) :
    casePoint begin ⟨'.' :: (w ++ rest), 0⟩ =
      some ⟨t, begin, ⟨rest, ('.' :: w).length⟩⟩ := by
  obtain ⟨d, f, x, rfl, hd, hf, hx⟩ := h.of_point
  have hfloat := formFloatToken_eq hf hx hb d 1
  rw [← List.append_assoc] at hfloat
  simp only [casePoint, List.cons_append, addCurCharToToken_cons, Option.bind_eq_bind,
    Option.bind_some, deref_cons, hd, if_true, Nat.zero_add, hfloat]
  congr 3
  simp only [List.length_cons]
  omega

theorem Form.exists_cons (h : Form t w) :
    ∃ c u, w = c :: u ∧ (isdigit c = true ∨ c = '.') := by
  have hdigits {d : CString} (hd : d ∈ digits) (y : CString) :
      ∃ c u, d ++ y = c :: u ∧ (isdigit c = true ∨ c = '.') := by
    obtain ⟨hne, hall⟩ := mem_digits.mp hd
    obtain ⟨c, d, rfl⟩ := List.exists_cons_of_ne_nil hne
    exact ⟨c, d ++ y, rfl, .inl (hall c List.mem_cons_self)⟩
  cases h with
  | octal h =>
    obtain ⟨u, rfl, -⟩ := mem_octal.mp h
    exact ⟨'0', u, rfl, .inl rfl⟩
  | dec h => simpa using hdigits h.1 []
  | @hex c w => exact ⟨'0', c :: w, rfl, .inl rfl⟩
  | tail hd => exact hdigits hd _
  | point => exact ⟨'.', _, rfl, .inr rfl⟩

/-- **A token that is formed at the cursor** is the one that is returned. -/
theorem tkGetNextToken_eq (hw : deref w ≠ nul)
    (hf : formNextToken v (tk.curPos.length + 1) tk.curPos =
      some ⟨t, w ++ rest, ⟨rest, w.length⟩⟩) :
    tkGetNextToken v tk = some ({ tk with type := t, curPos := rest }, some w) := by
  simp only [tkGetNextToken, hf, Option.bind_eq_bind, Option.bind_some, List.take_left, bne_iff_ne,
    if_pos hw]
  rfl

/-- **A numeral behind white space** and in front of a blank is the next token, unless it is
cut. -/
theorem tkGetNextToken_form (h : Form t w) (hcut : ¬Cut w) (hb : Blank rest)
    (hcur : tk.curPos.dropWhile isspace = w ++ rest) :
    tkGetNextToken v tk = some ({ tk with type := t, curPos := rest }, some w) := by
  obtain ⟨c, u, rfl, hc⟩ := h.exists_cons
  refine tkGetNextToken_eq ?_ ?_
  · rintro (rfl : c = nul)
    exact absurd hc (by decide)
  · rw [formNextToken, hcur]
    by_cases hzero : c = '0'
    · subst hzero
      have hoct := formOctalToken_eq h hcut hb 0
      simp only [List.cons_append, deref_cons, beq_self_eq_true, if_true, hoct, Option.map_some,
        Nat.zero_add]
    · have hne : (c == '0') = false := beq_false_of_ne hzero
      rcases hc with hdigit | rfl
      · have hdec := formDecimalToken_form h hdigit hzero hb 0
        rw [List.cons_append] at hdec
        simp only [List.cons_append, deref_cons, hne, hdigit, if_true, Bool.false_eq_true, if_false,
          hdec, Option.map_some, Nat.zero_add]
      · have hpunct : formPuncToken (formNextToken v tk.curPos.length) ('.' :: (u ++ rest))
            ⟨'.' :: (u ++ rest), 0⟩ = casePoint ('.' :: (u ++ rest)) ⟨'.' :: (u ++ rest), 0⟩ := rfl
        rw [casePoint_form h hb] at hpunct
        exact hpunct

/-! ### Literals -/

/-- **The numeric literals.** -/
inductive Literal : TokenT → CString → Prop
  | octal {w : CString} (h : w ∈ Tokenizer.octal) : Literal .octal w
  | dec {w : CString} (h : w ∈ digits - Tokenizer.octal) : Literal .dec w
  | hex {w : CString} (h : w ∈ Tokenizer.hex) : Literal .hex w
  | float {w : CString} (h : w ∈ Tokenizer.float) : Literal .float w

private theorem Literal.numeral (h : Literal t w) : Numeral t w [] := by
  cases h with
  | octal h => exact .octal h
  | dec h => exact .dec h
  | hex h => exact .hex h
  | float h => exact .float h

private theorem Literal.form (h : Literal t w) : Form t w := h.numeral.form

/-- **A token that starts with a zero** comes from the octal function. -/
theorem formNextToken_zero (h : formNextToken v n x = some g) (hzero : deref g.begin = '0') :
    formOctalToken ⟨g.begin, 0⟩ = some (g.type, g.scan) := by
  induction n generalizing x with
  | zero => cases h
  | succ n ih =>
    rw [formNextToken] at h
    generalize x.dropWhile isspace = r at h
    have hne {o : Option (TokenT × Scan)} {s : CString} (hs : ¬(deref s == '0') = true)
        (ho : (o.map fun r => (⟨r.1, s, r.2⟩ : Formed)) = some g) : False := by
      obtain ⟨q, -, rfl⟩ := Option.map_eq_some_iff.mp ho
      exact hs (beq_iff_eq.mpr hzero)
    split_ifs at h with hz hdigit halpha hpunct hcntrl
    · obtain ⟨q, hq, rfl⟩ := Option.map_eq_some_iff.mp h
      exact hq
    · exact (hne hz h).elim
    · exact (hne hz h).elim
    · obtain ⟨s, hs⟩ := eq_cons_of_deref (ne_nul_of_mem (by decide) hpunct)
      generalize deref r = c at hs hz hpunct
      subst hs
      have hcase : Punctuates v (formNextToken v n) (c :: s) _ := formPuncToken_punctuates hpunct
      rw [h] at hcase
      generalize ho : some g = o at hcase
      cases hcase with
      | token hat =>
        obtain rfl := Option.some.inj ho
        rw [hat.begin] at hzero
        exact absurd (beq_iff_eq.mpr hzero) hz
      | comment => exact ih ho.symm
    · exact (hne hz h).elim
    · obtain rfl := Option.some.inj h
      exact absurd (beq_iff_eq.mpr hzero) hz

/-- **A numeral that is cut is no token.** -/
theorem Cut.tkGetNextToken_ne (h : Cut w) : tkGetNextToken v tk ≠ some (tk', some w) := by
  intro htoken
  obtain ⟨g, hg, hret⟩ := Option.bind_eq_some_iff.mp htoken
  obtain ⟨-, htake⟩ := Prod.mk.inj (Option.some.inj hret)
  split_ifs at htake
  obtain rfl := Option.some.inj htake
  obtain ⟨u, hu⟩ := h.exists_zero
  have hzero : deref g.begin = '0' := by
    rw [← List.take_append_drop g.scan.length g.begin, hu]
    rfl
  have hoct := formNextToken_zero hg hzero
  obtain ⟨t, s, hs, hlt⟩ := h.formOctalToken (g.begin.drop g.scan.length) 0
  rw [List.take_append_drop, hoct] at hs
  obtain ⟨-, rfl⟩ := Prod.mk.inj (Option.some.inj hs)
  rw [List.length_take] at hlt
  omega

/-- **A literal in front of a blank** is the next token, with its type, exactly if it is not
cut. -/
theorem tkGetNextToken_literal_iff (v : Variant) (h : Literal t w) (hb : Blank rest)
    (hcur : tk.curPos = w ++ rest) :
    tkGetNextToken v tk = some ({ tk with type := t, curPos := rest }, some w) ↔ ¬Cut w := by
  have hdrop : tk.curPos.dropWhile isspace = w ++ rest := by
    obtain ⟨c, u, rfl, hc⟩ := h.form.exists_cons
    have hspace : isspace c = false := by
      rcases hc with hc | rfl
      · exact Bool.eq_false_iff.mpr fun hspace => by
          simp [not_isdigit_of_isspace hspace] at hc
      · rfl
    rw [hcur, List.cons_append, List.dropWhile_cons_of_neg (by simp [hspace])]
  exact ⟨fun htoken hcut => hcut.tkGetNextToken_ne htoken,
    fun hcut => tkGetNextToken_form h.form hcut hb hdrop⟩

theorem tkGetNextToken_literal_iff_octal :
    tkGetNextToken standalone (tkCreate standalone ['0', '7']) =
      some (⟨['0', '7'], [], .octal⟩, some ['0', '7']) ↔ ¬Cut ['0', '7'] :=
  tkGetNextToken_literal_iff standalone
    (.octal (mem_octal.mpr ⟨['7'], rfl, by decide, List.all_eq_true.mp rfl⟩)) .nil rfl

/-- The literal `08` gives the token `0`. -/
theorem not_tkGetNextToken_literal : ¬∀ (t : TokenT) (w rest : CString) (tk : TokenizerT),
    Literal t w → Blank rest → tk.curPos = w ++ rest →
      tkGetNextToken standalone tk = some ({ tk with type := t, curPos := rest }, some w) := by
  intro h
  have hdec : ['0', '8'] ∈ digits - octal := by
    refine ⟨mem_digits.mpr ⟨by decide, List.all_eq_true.mp rfl⟩, fun hoctal => ?_⟩
    obtain ⟨u, hu, -, hall⟩ := mem_octal.mp hoctal
    exact absurd (hall '8' (by rw [← (List.cons.inj hu).2]; simp)) (by decide)
  have htoken := h .dec ['0', '8'] [] (tkCreate standalone ['0', '8']) (.dec hdec) .nil rfl
  exact absurd htoken (by decide)

end Cs214.Tokenizer
