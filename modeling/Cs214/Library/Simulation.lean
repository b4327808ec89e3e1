import Mathlib.Data.List.Basic
import Mathlib.Logic.Basic

/-!
# Simulation of partial computations

`Simulates R x y` says that the computation `y` gives a result whenever `x` does, and that `R`
relates the two. The rules follow the structure of a `do` block, so that two functions that are
written alike are compared statement by statement.

The second part is about the two views of a cursor on a text with an end marker: what is left of
the text, and a position (`Points`). A position can leave the text, and `peek` reads nothing
there.
-/

namespace Cs214

universe u v

/-- **Simulation**: what the first computation gives, the second one gives up to `R`. -/
def Simulates {α : Type u} {β : Type v} (R : α → β → Prop) (x : Option α) (y : Option β) : Prop :=
  ∀ a, x = some a → ∃ b, y = some b ∧ R a b

namespace Simulates

variable {α α' : Type u} {β β' : Type v} {R : α → β → Prop} {S : α' → β' → Prop}
  {x x' : Option α} {y y' : Option β} {a : α} {b : β} {c : Prop}

theorem fault (R : α → β → Prop) (y : Option β) : Simulates R none y := fun _ h => nomatch h

theorem result (h : R a b) : Simulates R (some a) (some b) := by
  intro a' ha
  obtain rfl := Option.some.inj ha
  exact ⟨b, rfl, h⟩

/-- One statement after the other. -/
theorem bind {f : α → Option α'} {g : β → Option β'} (h : Simulates R x y)
    (hf : ∀ a b, R a b → Simulates S (f a) (g b)) : Simulates S (x >>= f) (y >>= g) := by
  intro a' ha'
  obtain ⟨a, ha, hfa⟩ := Option.bind_eq_some_iff.mp ha'
  obtain ⟨b, hb, hab⟩ := h a ha
  obtain ⟨b', hb', hab'⟩ := hf a b hab a' hfa
  exact ⟨b', Option.bind_eq_some_iff.mpr ⟨b, hb, hb'⟩, hab'⟩

theorem map {f : α → α'} {g : β → β'} (h : Simulates R x y) (hf : ∀ a b, R a b → S (f a) (g b)) :
    Simulates S (x.map f) (y.map g) := by
  intro a' ha'
  obtain ⟨a, ha, rfl⟩ := Option.map_eq_some_iff.mp ha'
  obtain ⟨b, hb, hab⟩ := h a ha
  exact ⟨g b, Option.map_eq_some_iff.mpr ⟨b, hb, rfl⟩, hf a b hab⟩

/-- A statement of the second computation alone. -/
theorem read {y' : Option β'} {b' : β'} {g : β' → Option β} (hy : y' = some b')
    (h : Simulates R x (g b')) : Simulates R x (y' >>= g) := by
  rw [hy]
  exact h

/-- A branch on the same condition. -/
theorem ite [Decidable c] (ht : Simulates R x y) (he : Simulates R x' y') :
    Simulates R (if c then x else x') (if c then y else y') := by
  split_ifs
  · exact ht
  · exact he

end Simulates

/-! ### A cursor on a text with an end marker -/

variable {α : Type u} {stop a : α} {text rest : List α} {i : ℕ}

/-- The item at a position. The end marker stands behind the text, and nothing behind that. -/
def peek (stop : α) (text : List α) (i : ℕ) : Option α := (text ++ [stop])[i]?

/-- The items of the text and its end marker can be read, and nothing else. -/
theorem isSome_peek : (peek stop text i).isSome ↔ i ≤ text.length := by
  rw [← not_iff_not, Option.not_isSome_iff_eq_none, peek, List.getElem?_eq_none_iff,
    List.length_append, List.length_singleton]
  omega

/-- **The position of a cursor** with `rest` of the text in front of it. -/
structure Points (text rest : List α) (i : ℕ) : Prop where
  le : i ≤ text.length
  drop : rest = text.drop i

namespace Points

theorem start (text : List α) : Points text text 0 := ⟨Nat.zero_le _, rfl⟩

theorem length (h : Points text rest i) : i + rest.length = text.length := by
  have hle := h.le
  rw [h.drop, List.length_drop]
  omega

/-- A loop over what is left is over after as many steps as there are items. -/
theorem length_lt (h : Points text rest i) : rest.length < text.length + 1 := by
  have hlength := h.length
  omega

/-- Reading at the cursor never leaves the text. -/
theorem peek (h : Points text rest i) : peek stop text i = some (rest.headD stop) := by
  rw [Cs214.peek, h.drop]
  rcases Nat.lt_or_ge i text.length with hlt | hge
  · rw [List.getElem?_append_left hlt, List.getElem?_eq_getElem hlt, List.drop_eq_getElem_cons hlt]
    rfl
  · obtain rfl : i = text.length := Nat.le_antisymm h.le hge
    rw [List.getElem?_concat_length, List.drop_length]
    rfl

/-- A step over an item. -/
theorem tail (h : Points text (a :: rest) i) : Points text rest (i + 1) where
  le := by
    have hlength := h.length
    rw [List.length_cons] at hlength
    omega
  drop := by rw [← List.drop_drop, ← h.drop, List.drop_one, List.tail_cons]

theorem lt (h : Points text (a :: rest) i) : i < text.length := h.tail.le

/-- **The loop rule**: a loop that steps over one item a time, with a fuel that exceeds what is
left of the text. -/
theorem loop {P : ℕ → List α → ℕ → Prop}
    (hend : ∀ n i, Points text [] i → P (n + 1) [] i)
    (hstep : ∀ n a rest i, Points text (a :: rest) i → P n rest (i + 1) → P (n + 1) (a :: rest) i)
    (h : Points text rest i) {n : ℕ} (hn : rest.length < n) : P n rest i := by
  induction rest generalizing i n with
  | nil =>
    obtain ⟨n, rfl⟩ := Nat.exists_eq_add_one.mpr hn
    exact hend n i h
  | cons a rest ih =>
    obtain ⟨n, rfl⟩ := Nat.exists_eq_add_one.mpr (Nat.zero_lt_of_lt hn)
    exact hstep n a rest i h (ih h.tail (Nat.lt_of_succ_lt_succ hn))

/-- What is left determines the position. -/
theorem unique {j : ℕ} (h : Points text rest i) (h' : Points text rest j) : i = j := by
  have hi := h.length
  have hj := h'.length
  omega

/-- The distance of two positions is the length of what stands between them. -/
theorem add_length {w : List α} {j : ℕ} (h : Points text (w ++ rest) i)
    (h' : Points text rest j) : i + w.length = j := by
  have hi := h.length
  have hj := h'.length
  rw [List.length_append] at hi
  omega

end Points

end Cs214
