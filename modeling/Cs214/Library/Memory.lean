import Mathlib.Tactic.Ring

/-!
# Byte memory and little-endian integers

A memory maps addresses to bytes. `readLE m a k` is the unsigned integer stored in the `k`
bytes at `a`, least significant byte first, and `writeLE m a k v` stores `v` there, dropping
what does not fit. The two rules about them are `readLE_writeLE` (what is read is what was
written, modulo `256 ^ k`) and `readLE_writeLE_of_disjoint` (other places are untouched);
`readLE_congr` is the frame rule for every other change of memory.
-/

namespace Cs214

/-- A byte-addressed memory. -/
abbrev Memory := ℕ → UInt8

namespace Memory

variable {m m' : Memory} {a b j k v : ℕ}

/-- The unsigned integer in the `k` bytes at `a`. -/
def readLE (m : Memory) (a : ℕ) : ℕ → ℕ
  | 0 => 0
  | k + 1 => (m a).toNat + 256 * readLE m (a + 1) k

/-- Store the `k` low bytes of `v` at `a`. -/
def writeLE (m : Memory) (a k v : ℕ) : Memory := fun b =>
  if a ≤ b ∧ b < a + k then UInt8.ofNat (v / 256 ^ (b - a)) else m b

/-- A byte outside the range written stays. -/
theorem writeLE_of_notMem (h : ¬(a ≤ b ∧ b < a + k)) : writeLE m a k v b = m b := if_neg h

/-- **Frame rule.** What is read depends on the bytes read only. -/
theorem readLE_congr (h : ∀ b, a ≤ b → b < a + k → m b = m' b) : readLE m a k = readLE m' a k := by
  induction k generalizing a with
  | zero => rfl
  | succ k ih =>
    have htail : readLE m (a + 1) k = readLE m' (a + 1) k :=
      ih fun b hb hbk => h b (by omega) (by omega)
    rw [readLE, readLE, htail, h a le_rfl (by omega)]

/-- **What is written is read**, modulo the width. -/
theorem readLE_writeLE (m : Memory) (a k v : ℕ) :
    readLE (writeLE m a k v) a k = v % 256 ^ k := by
  induction k generalizing a v with
  | zero => simp [readLE, Nat.mod_one]
  | succ k ih =>
    have htail : readLE (writeLE m a (k + 1) v) (a + 1) k
        = readLE (writeLE m (a + 1) k (v / 256)) (a + 1) k := by
      refine readLE_congr fun b hb hbk => ?_
      have hexp : b - a = (b - (a + 1)) + 1 := by omega
      rw [writeLE, writeLE, if_pos (by omega), if_pos (by omega), hexp, pow_succ',
        Nat.div_div_eq_div_mul]
    have hhead : (writeLE m a (k + 1) v a).toNat = v % 256 := by
      rw [writeLE, if_pos (by omega)]
      simp
    rw [readLE, htail, ih, hhead, pow_succ', Nat.mod_mul]

/-- What is read elsewhere is untouched. -/
theorem readLE_writeLE_of_disjoint (h : a + k ≤ b ∨ b + j ≤ a) :
    readLE (writeLE m a k v) b j = readLE m b j :=
  readLE_congr fun _ _ _ => writeLE_of_notMem (by omega)

end Memory

end Cs214
