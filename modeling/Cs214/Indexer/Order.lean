import Cs214.Indexer.Model
import Cs214.SortedList.References
import Mathlib.Data.Char

/-!
# The orders of the indexer

`strcmp` is a total order on strings. The two comparators of `index.c` come from it by three
constructions on lawful comparators: comparing a part of the item (`Comparator.onKey`), comparing
the other way round (`Comparator.flip`), and comparing by a second order what the first one
does not separate (`Comparator.lex`).
-/

namespace Cs214

namespace Comparator

variable {α β : Type}

/-- Compare items by a part of them. -/
def onKey (c : Comparator β) (key : α → β) : Comparator α where
  compare a b := c.compare (key a) (key b)
  range _ _ := c.range _ _
  swap _ _ := c.swap _ _
  trans _ _ _ := c.trans _ _ _
  congr_left _ _ _ := c.congr_left _ _ _

/-- Compare items the other way round. -/
def flip (c : Comparator α) : Comparator α where
  compare a b := c.compare b a
  range a b := c.range b a
  swap a b := c.swap b a
  trans a b d hab hbd := c.trans d b a hbd hab
  congr_left a b d hab := by
    have hda := c.swap a d
    have hdb := c.swap b d
    have := c.congr_left a b d (c.compare_comm.mp hab)
    omega

/-- Compare items by `c`, and equal ones by `d`. -/
def lex (c d : Comparator α) : Comparator α where
  compare a b := if c.compare a b = 0 then d.compare a b else c.compare a b
  range a b := by
    split_ifs
    · exact d.range a b
    · exact c.range a b
  swap a b := by
    have h := c.swap a b
    by_cases h₀ : c.compare a b = 0
    · rw [if_pos h₀, if_pos (c.compare_comm.mp h₀), d.swap]
    · rw [if_neg h₀, if_neg (mt c.compare_comm.mpr h₀), h]
  trans a b e hab hbe := by
    by_cases h₀ : c.compare a b = 0 <;> by_cases h₁ : c.compare b e = 0 <;>
      simp only [h₀, h₁, if_true, if_false] at hab hbe
    · have h₂ : c.compare a e = 0 := (c.congr_left a b e h₀).trans h₁
      rw [if_pos h₂]
      exact d.trans a b e hab hbe
    · rw [c.congr_left a b e h₀, if_neg h₁]
      exact hbe
    · have hgt : c.gt a e := (c.gt_congr_right h₁).mp hab
      rw [if_neg (c.compare_ne_zero_of_gt hgt)]
      exact hgt
    · have hgt : c.compare a e = 1 := c.trans a b e hab hbe
      rw [hgt]
      rfl
  congr_left a b e hab := by
    split_ifs at hab with h₀
    · rw [c.congr_left a b e h₀]
      split_ifs
      · exact d.congr_left a b e hab
      · rfl
    · exact absurd hab h₀

@[simp] theorem onKey_compare (c : Comparator β) (key : α → β) (a b : α) :
    (c.onKey key).compare a b = c.compare (key a) (key b) := rfl

@[simp] theorem flip_compare (c : Comparator α) (a b : α) :
    c.flip.compare a b = c.compare b a := rfl

private theorem lex_compare (c d : Comparator α) (a b : α) :
    (c.lex d).compare a b = if c.compare a b = 0 then d.compare a b else c.compare a b := rfl

/-- What is equal in both orders is equal. -/
private theorem lex_eq_zero {c d : Comparator α} {a b : α} :
    (c.lex d).compare a b = 0 ↔ c.compare a b = 0 ∧ d.compare a b = 0 := by
  rw [lex_compare]
  split_ifs with h <;> simp [h]

/-- The second order decides where the first does not. -/
private theorem lex_gt {c d : Comparator α} {a b : α} :
    (c.lex d).gt a b ↔ c.gt a b ∨ c.compare a b = 0 ∧ d.gt a b := by
  rw [gt, lex_compare, gt, gt]
  split_ifs with h <;> simp [h]

end Comparator

namespace Indexer

open SortedList

variable {s t u : Tokenizer.CString} {x y : IndexT} {r r' : RecordT}

/-! ### `strcmp` -/

/-- `strcmp` answers with a sign. -/
private theorem strcmp_range (s t : Tokenizer.CString) :
    strcmp s t = -1 ∨ strcmp s t = 0 ∨ strcmp s t = 1 := by
  induction s, t using strcmp.induct with
  | case1 | case2 | case3 => simp [strcmp]
  | case4 c s d t h => simp [strcmp, h]
  | case5 c s d t h h' => simp [strcmp, h, h']
  | case6 c s d t h h' ih => simpa [strcmp, h, h'] using ih

/-- The other way around, the sign is the other one. -/
theorem strcmp_swap (s t : Tokenizer.CString) : strcmp t s = -strcmp s t := by
  induction s, t using strcmp.induct with
  | case1 | case2 | case3 => simp [strcmp]
  | case4 c s d t h => simp [strcmp, h, h.not_gt]
  | case5 c s d t h h' => simp [strcmp, h, h']
  | case6 c s d t h h' ih => simpa [strcmp, h, h'] using ih

/-- **`strcmp` tells strings apart.** -/
theorem strcmp_eq_zero : strcmp s t = 0 ↔ s = t := by
  induction s, t using strcmp.induct with
  | case1 | case2 | case3 => simp [strcmp]
  | case4 c s d t h => simp [strcmp, h, h.ne]
  | case5 c s d t h h' => simp [strcmp, h, h', h'.ne']
  | case6 c s d t h h' ih =>
    obtain rfl := le_antisymm (not_lt.mp h') (not_lt.mp h)
    simpa [strcmp] using ih

/-- A string behind another is behind all those in front of it. -/
private theorem strcmp_trans (h₁ : strcmp s t = 1) (h₂ : strcmp t u = 1) : strcmp s u = 1 := by
  induction s, t using strcmp.induct generalizing u with
  | case1 | case2 => simp [strcmp] at h₁
  | case3 c s =>
    cases u with
    | nil => rfl
    | cons d u => simp [strcmp] at h₂
  | case4 c s d t h => simp [strcmp, h] at h₁
  | case5 c s d t h h' =>
    cases u with
    | nil => rfl
    | cons e u =>
      -- the first characters descend
      have hed : ¬d < e := by
        intro hde
        simp [strcmp, hde] at h₂
      have hec : e < c := lt_of_le_of_lt (not_lt.mp hed) h'
      simp [strcmp, hec, hec.not_gt]
  | case6 c s d t h h' ih =>
    obtain rfl := le_antisymm (not_lt.mp h') (not_lt.mp h)
    cases u with
    | nil => rfl
    | cons e u =>
      simp only [strcmp, lt_irrefl, if_false] at h₁
      simp only [strcmp] at h₂ ⊢
      split_ifs at h₂ ⊢
      · rfl
      · exact ih h₁ h₂

/-- `strcmp` as a lawful comparator. -/
def strcmpComparator : Comparator Tokenizer.CString where
  compare := strcmp
  range := strcmp_range
  swap := strcmp_swap
  trans _ _ _ := strcmp_trans
  congr_left s t u h := by rw [strcmp_eq_zero.mp h]

/-! ### The comparators of the lists -/

private theorem compareInt_compare (a b : ℤ) :
    compareInt.compare a b = if a > b then 1 else if a < b then -1 else 0 := rfl

private theorem compareInt_gt {a b : ℤ} : compareInt.compare a b = 1 ↔ b < a := by
  rw [compareInt_compare]
  grind

private theorem compareInt_eq_zero {a b : ℤ} : compareInt.compare a b = 0 ↔ a = b := by
  rw [compareInt_compare]
  grind

@[simp] theorem strcmpComparator_compare (s t : Tokenizer.CString) :
    strcmpComparator.compare s t = strcmp s t := rfl

/-- `compare_index` as a lawful comparator. -/
def indexComparator : Comparator IndexT := strcmpComparator.flip.onKey IndexT.token

/-- This is the comparison of two entries in the source. -/
theorem indexComparator_compare : indexComparator.compare = compareIndex := by
  funext x y
  have h := strcmp_range y.token x.token
  simp only [indexComparator, Comparator.onKey_compare, Comparator.flip_compare,
    strcmpComparator_compare, compareIndex]
  split_ifs <;> omega

/-- `compare_record` as a lawful comparator. -/
def recordComparator : Comparator RecordT :=
  (compareInt.onKey RecordT.count).lex (strcmpComparator.flip.onKey RecordT.file)

/-- This is the comparison of two records in the source. -/
theorem recordComparator_compare : recordComparator.compare = compareRecord := by
  funext r r'
  have h := strcmp_range r'.file r.file
  simp only [recordComparator, Comparator.lex_compare, Comparator.onKey_compare,
    Comparator.flip_compare, compareInt_compare, strcmpComparator_compare, compareRecord]
  rcases lt_trichotomy r.count r'.count with hlt | heq | hlt
  · simp [hlt, hlt.ne, hlt.not_gt]
  · simp only [heq, lt_irrefl, if_true, if_false]
    split_ifs <;> omega
  · simp [hlt, hlt.ne']

/-- The list of tokens ascends. -/
theorem indexComparator_gt : indexComparator.gt x y ↔ strcmp x.token y.token < 0 := by
  have h := strcmp_range x.token y.token
  have hswap := strcmp_swap x.token y.token
  simp only [Comparator.gt, indexComparator, Comparator.onKey_compare, Comparator.flip_compare,
    strcmpComparator_compare]
  omega

/-- Entries are equal if their tokens are. -/
theorem indexComparator_eq_zero : indexComparator.compare x y = 0 ↔ x.token = y.token :=
  strcmp_eq_zero.trans eq_comm

/-- **The order of records**: descending counts, then ascending paths. -/
def RecordT.Before (r r' : RecordT) : Prop :=
  r'.count < r.count ∨ r.count = r'.count ∧ strcmp r.file r'.file < 0

/-- The lists of records are in this order. -/
theorem recordComparator_gt : recordComparator.gt r r' ↔ r.Before r' := by
  have h := strcmp_range r.file r'.file
  have hswap := strcmp_swap r.file r'.file
  rw [recordComparator, Comparator.lex_gt]
  simp only [Comparator.gt, Comparator.onKey_compare, Comparator.flip_compare, compareInt_gt,
    compareInt_eq_zero, strcmpComparator_compare, RecordT.Before]
  omega

/-- Only equal records compare equal. -/
theorem recordComparator_eq_zero : recordComparator.compare r r' = 0 ↔ r = r' := by
  rw [recordComparator, Comparator.lex_eq_zero]
  obtain ⟨file, count⟩ := r
  obtain ⟨file', count'⟩ := r'
  simp only [Comparator.onKey_compare, Comparator.flip_compare, compareInt_eq_zero,
    strcmpComparator_compare, strcmp_eq_zero, RecordT.mk.injEq]
  rw [and_comm, eq_comm (a := file)]

end Indexer

end Cs214
