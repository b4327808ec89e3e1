import Mathlib.Computability.Language

/-!
# Languages of letter classes, and the longest match

The languages that scanners are specified with: one letter of a class, any number of letters of
a class, at least one, and an optional part. They are built from the operations on `Language`,
and the lemmas say what membership means for the letters of a word.

A scanner with a table of words takes the longest one. `Longest.of_follows` reduces that to the
letters that go on from a word in the table, which can be computed.
-/

namespace Cs214

open Computability

variable {α : Type*} {p q : α → Bool} {c : α} {v w : List α} {l : Language α}

/-- The words of one letter of the class `p`. -/
def letter (p : α → Bool) : Language α := {w | ∃ c, w = [c] ∧ p c = true}

/-- Any number of letters of a class. -/
def many (p : α → Bool) : Language α := (letter p)∗

/-- At least one letter of a class. -/
def many1 (p : α → Bool) : Language α := letter p * many p

/-- An optional part. -/
def opt (l : Language α) : Language α := 1 + l

theorem singleton_mem_letter (h : p c = true) : [c] ∈ letter p := ⟨c, rfl, h⟩

/-- The words of a class are those with all their letters in it. -/
theorem mem_many : w ∈ many p ↔ ∀ c ∈ w, p c = true := by
  rw [many, Language.mem_kstar]
  constructor
  · rintro ⟨L, rfl, hL⟩ c hc
    obtain ⟨w, hw, hcw⟩ := List.mem_flatten.mp hc
    obtain ⟨d, rfl, hd⟩ := hL w hw
    rwa [List.mem_singleton.mp hcw]
  · intro h
    refine ⟨w.map fun c => [c], by simp [← List.flatMap_def], fun y hy => ?_⟩
    obtain ⟨c, hc, rfl⟩ := List.mem_map.mp hy
    exact singleton_mem_letter (h c hc)

/-- The same without the empty word. -/
theorem mem_many1 : w ∈ many1 p ↔ w ≠ [] ∧ ∀ c ∈ w, p c = true := by
  rw [many1, Language.mem_mul]
  constructor
  · rintro ⟨_, ⟨c, rfl, hc⟩, u, hu, rfl⟩
    exact ⟨List.cons_ne_nil c u, List.forall_mem_cons.mpr ⟨hc, mem_many.mp hu⟩⟩
  · rintro ⟨hne, h⟩
    cases w with
    | nil => exact absurd rfl hne
    | cons c w =>
      obtain ⟨hc, hw⟩ := List.forall_mem_cons.mp h
      exact ⟨[c], singleton_mem_letter hc, w, mem_many.mpr hw, rfl⟩

theorem nil_mem_opt (l : Language α) : [] ∈ opt l := .inl rfl

theorem mem_opt_of_mem (h : w ∈ l) : w ∈ opt l := .inr h

/-! ### The letters of a language -/

/-- **The letters of the words** of a language are of a class. -/
def Letters (p : α → Bool) (l : Language α) : Prop := ∀ w ∈ l, ∀ c ∈ w, p c = true

namespace Letters

variable {m : Language α}

theorem many (h : ∀ c, q c = true → p c = true) : Letters p (Cs214.many q) :=
  fun _ hw c hc => h c (mem_many.mp hw c hc)

theorem letter (h : ∀ c, q c = true → p c = true) : Letters p (Cs214.letter q) := by
  rintro _ ⟨c, rfl, hc⟩ d hd
  rw [List.mem_singleton.mp hd]
  exact h c hc

/-- The letters of two languages are those of their product. -/
theorem mul (hl : Letters p l) (hm : Letters p m) : Letters p (l * m) := by
  intro _ hw c hc
  obtain ⟨u, hu, v, hv, rfl⟩ := Language.mem_mul.mp hw
  exact (List.mem_append.mp hc).elim (hl u hu c) (hm v hv c)

/-- And of their union. -/
theorem add (hl : Letters p l) (hm : Letters p m) : Letters p (l + m) :=
  fun w hw => hw.elim (hl w) (hm w)

theorem many1 (h : ∀ c, q c = true → p c = true) : Letters p (Cs214.many1 q) :=
  (letter h).mul (many h)

theorem opt (hl : Letters p l) : Letters p (Cs214.opt l) := by
  refine add (fun w hw c hc => ?_) hl
  rw [(Language.mem_one w).mp hw] at hc
  cases hc

end Letters

/-! ### The longest match -/

section Longest

variable {table : List (List α)} {rest text u : List α}

/-- **A table is checked** entry by entry. For letters of a finite type this is less work than to
decide the statement itself, which looks at every letter of the type. -/
theorem forall_mem_of_all {P : α → Prop} [DecidablePred P] {l : List α}
    (h : (l.all fun a => decide (P a)) = true) : ∀ a ∈ l, P a :=
  fun a ha => of_decide_eq_true (List.all_eq_true.mp h a ha)

/-- **The longest entry** of a table that a text starts with. -/
structure Longest (table : List (List α)) (w text : List α) : Prop where
  mem : w ∈ table
  starts : w <+: text
  longest : ∀ u ∈ table, u <+: text → u.length ≤ w.length

/-- The letters that go on from `w` in a table. -/
def follows [DecidableEq α] (table : List (List α)) (w : List α) : List α :=
  table.filterMap fun u => if w.isPrefixOf u then u[w.length]? else none

/-- What follows a word in a table is the letter behind it in some word of the table. -/
theorem mem_follows [DecidableEq α] :
    c ∈ follows table w ↔ ∃ u ∈ table, w <+: u ∧ u[w.length]? = some c := by
  simp [follows, List.mem_filterMap]

/-- **An entry is the longest** if the text does not go on with a letter that goes on from it. -/
theorem Longest.of_follows [DecidableEq α] (hw : w ∈ table)
    (hrest : ∀ c ∈ rest.head?, c ∉ follows table w) : Longest table w (w ++ rest) where
  mem := hw
  starts := List.prefix_append w rest
  longest := by
    intro u hu hstarts
    rcases List.prefix_or_prefix_of_prefix hstarts (List.prefix_append w rest) with hle | hle
    · exact hle.length_le
    · obtain ⟨v, rfl⟩ := hle
      cases v with
      | nil => simp
      | cons c v =>
        obtain ⟨t, ht⟩ := hstarts
        have hhead : rest.head? = some c := by
          rw [List.append_assoc] at ht
          rw [← List.append_cancel_left ht]
          rfl
        exact absurd (mem_follows.mpr ⟨_, hu, List.prefix_append w _, by simp⟩) (hrest c hhead)

end Longest

end Cs214
