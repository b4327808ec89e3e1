import Cs214.Library.Path

/-!
# Releasing the cells of chains

A client that gives cells back leaves the others as they are (`Without`). What it gives back piece
by piece it has given back (`Without.trans`), a path that avoids these cells stays, and a path
that is left was there before (`Without.path`, `Without.path_before`).
-/

namespace Cs214

namespace Store

variable {V : Type*} {s t u : Store V} {link : V → Option ℕ} {p q : Option ℕ} {a b : ℕ} {v : V}
  {l l' : List ℕ}

/-- **The cells at `l` have been given back**, and no others. -/
def Without (s : Store V) (l : List ℕ) (t : Store V) : Prop :=
  ∀ b, t.cell b = if b ∈ l then none else s.cell b

namespace Without

theorem refl (s : Store V) : Without s [] s := fun _ => by simp

theorem trans (h : Without s l t) (h' : Without t l' u) : Without s (l ++ l') u := by
  intro b
  rw [h' b, h b]
  by_cases hl : b ∈ l <;> by_cases hl' : b ∈ l' <;> simp [hl, hl']

/-- One more cell. -/
theorem erase (h : Without s l t) (a : ℕ) : Without s (a :: l) (t.erase a) := by
  intro b
  by_cases hb : b = a
  · subst hb
    simp
  · rw [erase_cell_of_ne t hb, h b]
    simp [hb]

theorem cell_of_notMem (h : Without s l t) (ha : a ∉ l) : t.cell a = s.cell a := by
  rw [h a, if_neg ha]

/-- A cell that is left was there before. -/
theorem cell_before (h : Without s l t) (ha : t.cell a = some v) : s.cell a = some v := by
  rw [h a] at ha
  split_ifs at ha
  exact ha

/-- **A path that avoids the cells** stays. -/
theorem path (h : Without s l t) (hp : Path s link q p l') (hl : ∀ a ∈ l', a ∉ l) :
    Path t link q p l' :=
  hp.congr fun a ha v hv => ⟨v, (h.cell_of_notMem (hl a ha)).trans hv, rfl⟩

/-- **A path that is left** was there before. -/
theorem path_before (h : Without s l t) (hp : Path t link q p l') : Path s link q p l' :=
  hp.congr fun _ _ v hv => ⟨v, h.cell_before hv, rfl⟩

/-- Nothing is left when every cell has been given back. -/
theorem eq_empty (h : Without s l t) (hl : ∀ a ∈ s.dom, a ∈ l) : t = empty := by
  refine Store.ext fun a => ?_
  rw [h a, empty_cell]
  split_ifs with ha
  · rfl
  · exact cell_eq_none fun hdom => ha (hl a hdom)

end Without

end Store

end Cs214
