import Mathlib.Data.List.Infix
import Mathlib.Data.Nat.Notation

/-!
# Reading back what is written with separators

A text is often written as items one after the other, each behind its encoding `enc a` with a
separator that says whether there is a next item (`separated`). The items can be read back if
one item with its separator can, whatever follows it (`Readable`); this is enough for the whole
list, and for lists of lists (`Readable.separated`).

A field that is written as it is, between two fixed texts, is read back only if it does not hold
the text behind it: `eq_of_append_marker` compares two fields by the texts behind them, and
`eq_of_append_cons` is the case of one letter that the fields do not hold.
-/

namespace Cs214

variable {α β : Type*} {c : β} {s t u v x y : List β}

/-! ### Fields -/

/-- A text without the letter `c` ends before the first `c`. -/
private theorem prefix_of_append_cons (hc : c ∉ u) (h : u ++ x = t ++ c :: y) : u <+: t := by
  rcases List.append_eq_append_iff.mp h with ⟨w, rfl, -⟩ | ⟨w, rfl, hw⟩
  · exact List.prefix_append u w
  · cases w with
    | nil => rw [List.append_nil]
    | cons d w =>
      obtain ⟨rfl, -⟩ := List.cons.inj hw
      exact absurd (List.mem_append_right t (List.mem_cons_self ..)) hc

/-- The longer one of two fields holds the marker behind the shorter one. -/
private theorem eq_nil_or_infix_of_append_marker (hu : c ∉ u)
    (h : c :: u ++ x = t ++ (c :: v ++ y)) : t = [] ∨ c :: u <:+: t := by
  cases t with
  | nil => exact .inl rfl
  | cons d t =>
    obtain ⟨rfl, hrest⟩ := List.cons.inj h
    have hstarts : u <+: t := prefix_of_append_cons hu hrest
    exact .inr (List.IsPrefix.isInfix ((List.prefix_cons_inj c).mpr hstarts))

/-- **Fields are read back up to the markers behind them**, if neither holds the marker of the
other one. A marker is a letter with a text that does not hold this letter. -/
theorem eq_of_append_marker (hu : c ∉ u) (hv : c ∉ v) (hs : ¬c :: v <:+: s)
    (ht : ¬c :: u <:+: t) (h : s ++ (c :: u ++ x) = t ++ (c :: v ++ y)) :
    s = t ∧ u ++ x = v ++ y := by
  have hfields : s = t := by
    rcases List.append_eq_append_iff.mp h with ⟨w, rfl, hw⟩ | ⟨w, rfl, hw⟩
    · rcases eq_nil_or_infix_of_append_marker hu hw with rfl | hheld
      · exact (List.append_nil s).symm
      · exact absurd (hheld.trans (List.suffix_append s w).isInfix) ht
    · rcases eq_nil_or_infix_of_append_marker hv hw with rfl | hheld
      · exact List.append_nil t
      · exact absurd (hheld.trans (List.suffix_append t w).isInfix) hs
  subst hfields
  exact ⟨rfl, (List.cons.inj (List.append_cancel_left h)).2⟩

/-- Fields that do not hold the letter behind them are read back. -/
theorem eq_of_append_cons (hs : c ∉ s) (ht : c ∉ t) (h : s ++ c :: x = t ++ c :: y) :
    s = t ∧ x = y :=
  eq_of_append_marker (u := []) (v := []) List.not_mem_nil List.not_mem_nil
    (fun hheld => hs (hheld.subset (List.mem_singleton_self c)))
    (fun hheld => ht (hheld.subset (List.mem_singleton_self c))) h

/-! ### Lists -/

/-- **A list is read back** from its items one behind the other, if each item is, whatever
follows it. -/
theorem flatMap_inj {enc : α → List β} {P : α → Prop} {l l' : List α}
    (h : ∀ a b x y, P a → P b → enc a ++ x = enc b ++ y → a = b ∧ x = y)
    (hne : ∀ a, enc a ≠ []) (hl : ∀ a ∈ l, P a) (hl' : ∀ a ∈ l', P a)
    (heq : l.flatMap enc = l'.flatMap enc) : l = l' := by
  induction l generalizing l' with
  | nil =>
    cases l' with
    | nil => rfl
    | cons b l' =>
      rw [List.flatMap_nil, List.flatMap_cons] at heq
      exact absurd (List.append_eq_nil_iff.mp heq.symm).1 (hne b)
  | cons a l ih =>
    cases l' with
    | nil =>
      rw [List.flatMap_nil, List.flatMap_cons] at heq
      exact absurd (List.append_eq_nil_iff.mp heq).1 (hne a)
    | cons b l' =>
      rw [List.flatMap_cons, List.flatMap_cons] at heq
      obtain ⟨ha, htail⟩ := List.forall_mem_cons.mp hl
      obtain ⟨hb, htail'⟩ := List.forall_mem_cons.mp hl'
      obtain ⟨rfl, hrest⟩ := h a b _ _ ha hb heq
      rw [ih htail htail' hrest]

/-- The items of a list, each with the separator behind it. -/
def separated (enc : α → List β) (sep : Bool → List β) : List α → List β
  | [] => []
  | a :: l => enc a ++ sep l.head?.isSome ++ separated enc sep l

/-- **An item is read back** with its separator, whatever follows. -/
def Readable (enc : α → List β) (sep : Bool → List β) (P : α → Prop) : Prop :=
  ∀ a b n m x y, P a → P b → enc a ++ (sep n ++ x) = enc b ++ (sep m ++ y) → a = b ∧ n = m ∧ x = y

variable {enc : α → List β} {sep : Bool → List β} {P : α → Prop} {l l' : List α}

/-- **A list is read back** if its items are. -/
theorem Readable.separated_inj (h : Readable enc sep P) (hne : l ≠ []) (hne' : l' ≠ [])
    (hl : ∀ a ∈ l, P a) (hl' : ∀ a ∈ l', P a)
    (heq : separated enc sep l ++ x = separated enc sep l' ++ y) : l = l' ∧ x = y := by
  induction l generalizing l' with
  | nil => exact absurd rfl hne
  | cons a l ih =>
    cases l' with
    | nil => exact absurd rfl hne'
    | cons b l' =>
      simp only [separated, List.append_assoc] at heq
      obtain ⟨rfl, hnext, hrest⟩ :=
        h a b _ _ _ _ (hl a (List.mem_cons_self ..)) (hl' b (List.mem_cons_self ..)) heq
      -- the separator says whether there is a next item
      cases l with
      | nil =>
        cases l' with
        | nil => exact ⟨rfl, hrest⟩
        | cons d l' => cases hnext
      | cons e l =>
        cases l' with
        | nil => cases hnext
        | cons d l' =>
          obtain ⟨htails, hxy⟩ := ih (List.cons_ne_nil e l) (List.cons_ne_nil d l')
            (fun a ha => hl a (List.mem_cons_of_mem _ ha))
            (fun a ha => hl' a (List.mem_cons_of_mem _ ha)) hrest
          exact ⟨by rw [htails], hxy⟩

end Cs214
