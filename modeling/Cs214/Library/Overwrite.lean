import Mathlib.Data.List.TakeWhile

/-!
# Fields of a record in memory

A record is a list of items of fixed length. `overwrite` stores data at an offset, and a text in a
field is what stands in front of the first end marker, whatever is behind it from earlier
(`text_overwrite`).
-/

namespace Cs214

variable {α : Type*} {l data text : List α} {i n : ℕ} {stop : α}

/-- Store data at an offset. -/
def overwrite (l : List α) (i : ℕ) (data : List α) : List α :=
  l.take i ++ data ++ l.drop (i + data.length)

theorem length_overwrite (h : i + data.length ≤ l.length) :
    (overwrite l i data).length = l.length := by
  simp only [overwrite, List.length_append, List.length_take, List.length_drop]
  omega

/-- What stands in front of the data stays. -/
theorem take_overwrite (hn : n ≤ i) (hi : i ≤ l.length) :
    (overwrite l i data).take n = l.take n := by
  have hlength : n ≤ (l.take i).length := by
    rw [List.length_take]
    omega
  rw [overwrite, List.append_assoc, List.take_append_of_le_length hlength, List.take_take,
    Nat.min_eq_left hn]

/-- The data are there. -/
theorem drop_overwrite (hi : i ≤ l.length) :
    (overwrite l i data).drop i = data ++ l.drop (i + data.length) := by
  rw [overwrite, List.append_assoc]
  exact List.drop_left' (by rw [List.length_take, Nat.min_eq_left hi])

/-- The data alone. -/
theorem take_drop_overwrite (hi : i ≤ l.length) :
    ((overwrite l i data).drop i).take data.length = data := by
  rw [drop_overwrite hi, List.take_left]

/-- What stands behind the data stays. -/
theorem drop_overwrite_of_le (hn : i + data.length ≤ n) (hi : i ≤ l.length) :
    (overwrite l i data).drop n = l.drop n := by
  have hsplit : n = i + (n - i) := by omega
  have htail : n - i = data.length + (n - i - data.length) := by omega
  rw [hsplit, ← List.drop_drop, drop_overwrite hi, htail, ← List.drop_drop, List.drop_left,
    List.drop_drop]
  congr 1
  omega

/-- What is stored over the data wins. -/
theorem overwrite_overwrite {data' : List α} (h : data.length ≤ data'.length)
    (hi : i ≤ l.length) : overwrite (overwrite l i data) i data' = overwrite l i data' := by
  have htake : (overwrite l i data).take i = l.take i := take_overwrite le_rfl hi
  have hdrop : (overwrite l i data).drop (i + data'.length) = l.drop (i + data'.length) :=
    drop_overwrite_of_le (Nat.add_le_add_left h i) hi
  rw [overwrite, htake, hdrop, overwrite]

/-- Data stored behind data. -/
theorem overwrite_append {data' : List α} (hi : i + data.length ≤ l.length) :
    overwrite (overwrite l i data) (i + data.length) data' = overwrite l i (data ++ data') := by
  have htake : (overwrite l i data).take (i + data.length) = l.take i ++ data := by
    rw [overwrite]
    refine List.take_left' ?_
    rw [List.length_append, List.length_take, Nat.min_eq_left (by omega)]
  have hdrop : (overwrite l i data).drop (i + data.length + data'.length) =
      l.drop (i + (data ++ data').length) := by
    rw [drop_overwrite_of_le (by omega) (by omega), List.length_append, Nat.add_assoc]
  rw [overwrite, htake, hdrop, overwrite, List.append_assoc (l.take i)]

/-- What stands in a field in front of the first end marker. -/
def fieldText [DecidableEq α] (stop : α) (field : List α) : List α :=
  field.takeWhile (· != stop)

/-- **A text is read as it was stored**, with its end marker, in a field of `n` items. -/
theorem text_overwrite [DecidableEq α] (htext : stop ∉ text) (hi : i ≤ l.length)
    (hn : text.length < n) :
    fieldText stop (((overwrite l i (text ++ [stop])).drop i).take n) = text := by
  have hall : ∀ a ∈ text, (a != stop) = true := by
    intro a ha
    exact bne_iff_ne.mpr fun heq => htext (heq ▸ ha)
  obtain ⟨m, rfl⟩ : ∃ m, n = text.length + (m + 1) := ⟨n - text.length - 1, by omega⟩
  rw [drop_overwrite hi, List.append_assoc, List.take_length_add_append, fieldText,
    List.takeWhile_append_of_pos hall, List.singleton_append, List.take_succ_cons,
    List.takeWhile_cons_of_neg (by simp), List.append_nil]

/-- **A text stored behind a text.** -/
theorem overwrite_text_append {text' : List α} (hi : i + text.length + 1 ≤ l.length) :
    overwrite (overwrite l i (text ++ [stop])) (i + text.length) (text' ++ [stop]) =
      overwrite l i (text ++ text' ++ [stop]) := by
  have hlength : (overwrite l i text).length = l.length := length_overwrite (by omega)
  have hfirst : overwrite (overwrite l i text) (i + text.length) [stop] =
      overwrite l i (text ++ [stop]) := overwrite_append (by omega)
  rw [← hfirst, overwrite_overwrite, overwrite_append (by omega), List.append_assoc]
  · rw [List.length_append]
    exact Nat.le_add_left _ _
  · omega

end Cs214
