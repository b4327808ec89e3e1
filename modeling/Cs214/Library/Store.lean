import Mathlib.Data.Finset.Card
import Mathlib.Data.Finset.Basic
import Mathlib.Tactic.Ring

/-!
# Finite stores of cells

`Store V` is the heap of a program that allocates cells of one type `V`: finitely many
addresses hold a cell, every other address is free. The finite set of allocated addresses
is a field next to the lookup function, and the two agree by construction, so that a store
with infinitely many cells, or with a stray address in its domain, cannot be built.

`Store.count p` counts the cells that satisfy a Boolean test. It is what a reference count
is compared with: the number of cells whose link points to a given address. The three
update laws (`count_insert_of_free`, `count_insert`, `count_erase`) are stated without
subtraction, so `omega` can use them directly.
-/

namespace Cs214

/-- A **finite store**: the allocated addresses and the cell each of them holds. -/
structure Store (V : Type*) where
  dom : Finset ℕ
  cell : ℕ → Option V
  mem_dom : ∀ a, a ∈ dom ↔ (cell a).isSome

namespace Store

variable {V : Type*}

/-- The store without any cell. -/
def empty : Store V := ⟨∅, fun _ => none, by simp⟩

/-- Write `v` at `a`, whether `a` is allocated already or not. -/
def insert (s : Store V) (a : ℕ) (v : V) : Store V where
  dom := Insert.insert a s.dom
  cell b := if b = a then some v else s.cell b
  mem_dom b := by
    by_cases h : b = a <;> simp [h, s.mem_dom]

/-- Free the address `a`. -/
def erase (s : Store V) (a : ℕ) : Store V where
  dom := s.dom.erase a
  cell b := if b = a then none else s.cell b
  mem_dom b := by
    by_cases h : b = a <;> simp [h, s.mem_dom]

/-- The number of cells that pass the test `p`. -/
def count (p : V → Bool) (s : Store V) : ℕ := (s.dom.filter fun a => (s.cell a).any p).card

@[simp] theorem empty_cell (a : ℕ) : (empty : Store V).cell a = none := rfl

@[simp] theorem empty_dom : (empty : Store V).dom = ∅ := rfl

theorem insert_cell (s : Store V) (a : ℕ) (v : V) (b : ℕ) :
    (s.insert a v).cell b = if b = a then some v else s.cell b := rfl

@[simp] theorem insert_cell_self (s : Store V) (a : ℕ) (v : V) :
    (s.insert a v).cell a = some v := if_pos rfl

@[simp] theorem insert_cell_of_ne (s : Store V) (v : V) {a b : ℕ} (h : b ≠ a) :
    (s.insert a v).cell b = s.cell b := if_neg h

@[simp] theorem erase_cell_self (s : Store V) (a : ℕ) : (s.erase a).cell a = none := if_pos rfl

@[simp] theorem erase_cell_of_ne (s : Store V) {a b : ℕ} (h : b ≠ a) :
    (s.erase a).cell b = s.cell b := if_neg h

/-- A cell behind a write is the one that was written or one of the others. -/
theorem insert_cell_eq_some {s : Store V} {a b : ℕ} {v w : V} :
    (s.insert a v).cell b = some w ↔ b = a ∧ v = w ∨ b ≠ a ∧ s.cell b = some w := by
  by_cases h : b = a
  · simp [h]
  · simp [h]

theorem erase_cell_eq_some {s : Store V} {a b : ℕ} {w : V} :
    (s.erase a).cell b = some w ↔ b ≠ a ∧ s.cell b = some w := by
  by_cases h : b = a
  · simp [h]
  · simp [h]

/-- **What an overwriting keeps**: a function of the cells that is the same for the old and the
new contents is the same everywhere. -/
theorem exists_of_insert_cell {s : Store V} {W : Type*} (f : V → W) {a b : ℕ} {u v w : V}
    (h : s.cell a = some u) (hb : (s.insert a v).cell b = some w) (hf : f v = f u) :
    ∃ w', s.cell b = some w' ∧ f w' = f w := by
  rcases insert_cell_eq_some.mp hb with ⟨rfl, rfl⟩ | ⟨-, hb⟩
  · exact ⟨u, h, hf.symm⟩
  · exact ⟨w, hb, rfl⟩

/-- What `f` tells of the cells stays if it stays of the one that is replaced. -/
theorem exists_insert_cell {s : Store V} {W : Type*} (f : V → W) {a b : ℕ} {u v w : V}
    (h : s.cell a = some u) (hb : s.cell b = some w) (hf : f v = f u) :
    ∃ w', (s.insert a v).cell b = some w' ∧ f w' = f w := by
  by_cases hba : b = a
  · subst hba
    obtain rfl := Option.some.inj (h.symm.trans hb)
    exact ⟨v, insert_cell_self _ _ _, hf⟩
  · exact ⟨w, (insert_cell_of_ne _ _ hba).trans hb, rfl⟩

/-- Only allocated addresses hold a cell. -/
theorem mem_dom_of_cell {s : Store V} {a : ℕ} {v : V} (h : s.cell a = some v) : a ∈ s.dom :=
  (s.mem_dom a).mpr (by simp [h])

/-- An address outside the domain holds no cell. -/
theorem cell_eq_none {s : Store V} {a : ℕ} (h : a ∉ s.dom) : s.cell a = none := by
  rw [s.mem_dom, Bool.not_eq_true] at h
  exact Option.isSome_eq_false_iff.mp h |> Option.isNone_iff_eq_none.mp

/-- Stores are determined by their cells. -/
@[ext]
theorem ext {s t : Store V} (h : ∀ a, s.cell a = t.cell a) : s = t := by
  obtain ⟨d, c, hc⟩ := s
  obtain ⟨d', c', hc'⟩ := t
  obtain rfl : c = c' := funext h
  obtain rfl : d = d' := Finset.ext fun a => (hc a).trans (hc' a).symm
  rfl

/-- The last value counts. -/
theorem insert_insert_self (s : Store V) (a : ℕ) (v w : V) :
    (s.insert a v).insert a w = s.insert a w := by
  ext b
  by_cases hb : b = a <;> simp [hb]

/-- Different cells are filled in any order. -/
theorem insert_comm (s : Store V) {a b : ℕ} (h : a ≠ b) (v w : V) :
    (s.insert a v).insert b w = (s.insert b w).insert a v := by
  ext d
  by_cases hda : d = a
  · simp [hda, h]
  · by_cases hdb : d = b <;> simp [hda, hdb, h.symm]

/-- To erase a cell undoes what was put there. -/
theorem erase_insert_self (s : Store V) (a : ℕ) (v : V) : (s.insert a v).erase a = s.erase a := by
  ext b
  by_cases hb : b = a <;> simp [hb]

theorem erase_insert_of_ne (s : Store V) {a b : ℕ} (h : a ≠ b) (v : V) :
    (s.insert a v).erase b = (s.erase b).insert a v := by
  ext d
  by_cases hda : d = a
  · simp [hda, h]
  · by_cases hdb : d = b <;> simp [hda, hdb, h.symm]

/-! ### Counting cells -/

@[simp] theorem count_empty (p : V → Bool) : (empty : Store V).count p = 0 := by
  simp [count]

/-- A cell that passes the test is counted. -/
theorem count_pos {p : V → Bool} {s : Store V} {a : ℕ} {v : V} (h : s.cell a = some v)
    (hp : p v = true) : 0 < s.count p :=
  Finset.card_pos.mpr ⟨a, Finset.mem_filter.mpr ⟨mem_dom_of_cell h, by simp [h, hp]⟩⟩

/-- A positive count exhibits a cell that passes the test. -/
theorem exists_of_count_pos {p : V → Bool} {s : Store V} (h : 0 < s.count p) :
    ∃ a v, s.cell a = some v ∧ p v = true := by
  obtain ⟨a, ha⟩ := Finset.card_pos.mp h
  obtain ⟨v, hv, hp⟩ := (Option.any_eq_true _ _).mp (Finset.mem_filter.mp ha).2
  exact ⟨a, v, hv, hp⟩

/-- A count is zero exactly when every cell fails the test. -/
theorem count_eq_zero_iff {p : V → Bool} {s : Store V} :
    s.count p = 0 ↔ ∀ a v, s.cell a = some v → p v = false := by
  constructor
  · intro h a v hv
    by_contra hp
    have := count_pos hv (by simpa using hp)
    omega
  · intro h
    by_contra h0
    obtain ⟨a, v, hv, hp⟩ := exists_of_count_pos (Nat.pos_of_ne_zero h0)
    simp [h a v hv] at hp

/-- **Allocation** adds the new cell to the count when it passes the test. -/
theorem count_insert_of_free (p : V → Bool) {s : Store V} {a : ℕ} (v : V)
    (h : s.cell a = none) : (s.insert a v).count p = s.count p + (p v).toNat := by
  have hdom : a ∉ s.dom := by simp [s.mem_dom, h]
  have hrest : (s.dom.filter fun b => ((s.insert a v).cell b).any p)
      = s.dom.filter fun b => (s.cell b).any p := by
    refine Finset.filter_congr fun b hb => ?_
    rw [insert_cell_of_ne s v (ne_of_mem_of_not_mem hb hdom)]
  have hins : (s.insert a v).dom = Insert.insert a s.dom := rfl
  rw [count, hins, Finset.filter_insert, hrest, insert_cell_self]
  cases hp : p v
  · simp [hp, count]
  · simp [hp, count, hdom]

/-- **Freeing** a cell takes it out of the count. -/
theorem count_erase (p : V → Bool) {s : Store V} {a : ℕ} {v : V} (h : s.cell a = some v) :
    (s.erase a).count p + (p v).toNat = s.count p := by
  have hsplit : (s.erase a).insert a v = s := by
    ext b
    by_cases hb : b = a <;> simp [hb, h]
  have hcount := count_insert_of_free p (s := s.erase a) (a := a) v (erase_cell_self s a)
  rw [hsplit] at hcount
  exact hcount.symm

/-- **Overwriting** a cell exchanges the old test result for the new one. -/
theorem count_insert (p : V → Bool) {s : Store V} {a : ℕ} {w : V} (v : V)
    (h : s.cell a = some w) :
    (s.insert a v).count p + (p w).toNat = s.count p + (p v).toNat := by
  have hsplit : s.insert a v = (s.erase a).insert a v := by
    ext b
    by_cases hb : b = a <;> simp [hb]
  have h1 := count_insert_of_free p (s := s.erase a) (a := a) v (erase_cell_self s a)
  have h2 := count_erase p h
  rw [hsplit, h1]
  omega

/-- A test that one more cell passes counts strictly more cells. -/
theorem count_lt_count {p q : V → Bool} {s : Store V}
    (h : ∀ a v, s.cell a = some v → p v = true → q v = true) {b : ℕ} {w : V}
    (hb : s.cell b = some w) (hp : p w = false) (hq : q w = true) : s.count p < s.count q := by
  refine Finset.card_lt_card (Finset.ssubset_iff_of_subset ?_ |>.mpr ⟨b, ?_, ?_⟩)
  · intro a ha
    obtain ⟨hdom, hany⟩ := Finset.mem_filter.mp ha
    obtain ⟨v, hv, hpv⟩ := (Option.any_eq_true _ _).mp hany
    exact Finset.mem_filter.mpr ⟨hdom, by simp [hv, h a v hv hpv]⟩
  · exact Finset.mem_filter.mpr ⟨mem_dom_of_cell hb, by simp [hb, hq]⟩
  · simp [hb, hp]

/-- When at most one cell passes the test, the count is at most one. -/
theorem count_le_one {p : V → Bool} {s : Store V}
    (h : ∀ a b v w, s.cell a = some v → s.cell b = some w → p v = true → p w = true → a = b) :
    s.count p ≤ 1 := by
  refine Finset.card_le_one.mpr fun a ha b hb => ?_
  obtain ⟨v, hv, hpv⟩ := (Option.any_eq_true _ _).mp (Finset.mem_filter.mp ha).2
  obtain ⟨w, hw, hpw⟩ := (Option.any_eq_true _ _).mp (Finset.mem_filter.mp hb).2
  exact h a b v w hv hw hpv hpw

end Store

end Cs214
