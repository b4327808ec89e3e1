import Cs214.SortedList.OrderedSet

/-!
# Reading a list that is not removed from

A client that only inserts and iterates sees a list as the sequence of its items. `Holds c w xs`
says that the list of `w` holds `xs`, and `Reading c w i xs ys` that iterator `i` has passed `xs`
and has `ys` ahead. An iterator rests on a listed node, whose second reference keeps it from
being destroyed, so `SLNextItem` moves on by exactly one item and the list stays as it is.
-/

namespace Cs214.SortedList

variable {α : Type} {c : Comparator α} {w w' : World α} {a i addr : ℕ} {node : Node α}
  {it : SortedListIterator} {x y : α} {xs ys : List α} {freed l l₁ l₂ : List ℕ}

/-- **The list holds the items** `xs`. -/
structure Holds (c : Comparator α) (w : World α) (xs : List α) : Prop where
  valid : Valid c w
  list : w.list.isSome
  items : w.items = xs

theorem Holds.pairwise (h : Holds c w xs) : xs.Pairwise c.gt := h.items ▸ h.valid.items_pairwise

/-- The list `SLCreate` makes holds nothing. -/
theorem holds_start (c : Comparator α) : Holds c (start c) [] where
  valid := valid_start c
  list := rfl
  items := items_of_linked ((valid_start c).linked_eq .nil)

/-- **`SLInsert`** leaves a list that holds an equal item, and otherwise adds the item. -/
theorem Holds.insert {advance : ℤ → Bool} (h : Holds c w xs) (hadv : Passes c advance)
    (hfresh : addr ∉ w.nodes.dom) (x : α) :
    (slInsertWith advance w x addr = some (w, 0) ∧ ∃ y ∈ xs, c.compare y x = 0) ∨
      ∃ w' xs', slInsertWith advance w x addr = some (w', 1) ∧ Holds c w' xs' ∧
        xs'.Perm (x :: xs) := by
  rcases slInsertWith_spec hadv h.valid h.list hfresh x with
    ⟨hrun, y, hy, heq⟩ | ⟨w', l₁, l₂, hrun, hins, -, -⟩
  · exact .inl ⟨hrun, y, h.items ▸ hy, heq⟩
  · obtain ⟨hbefore, hafter⟩ := hins.items h.valid
    refine .inr ⟨w', _, hrun, ⟨hins.valid, hins.list ▸ h.list, hafter⟩, ?_⟩
    rw [← h.items, hbefore]
    exact List.perm_middle

/-- The items fit in the fuel of a loop. -/
theorem Holds.length_lt_fuel (h : Holds c w xs) : xs.length < w.fuel := by
  rw [← h.items, World.items]
  exact (List.length_filterMap_le _ _).trans_lt h.valid.linked_length_lt_fuel

/-- An iterator function keeps what the list holds. -/
private theorem Settles.holds (h : Settles c w w' freed) (hw : Holds c w xs) : Holds c w' xs where
  valid := h.valid
  list := h.list ▸ hw.list
  items := (h.items_eq hw.valid).trans hw.items

/-- Items of listed nodes are kept, node by node. -/
private theorem Settles.filterMap_item (h : Settles c w w' freed) (hw : Valid c w)
    (hl : ∀ a ∈ l, a ∈ w.linked) : l.filterMap w'.item = l.filterMap w.item :=
  List.filterMap_congr fun a ha =>
    h.shrinks.item_eq (h.valid.exists_of_mem_linked (h.linked_eq hw ▸ hl a ha))

/-- The first node is the first of the listed ones. -/
private theorem Valid.first_eq_head (h : Valid c w) : w.first = w.linked.head? := by
  have hp := h.path_linked
  cases hl : w.linked with
  | nil => exact Store.Path.nil_iff.mp (hl ▸ hp)
  | cons a l => exact (Store.Path.cons_iff.mp (hl ▸ hp)).1

/-- **A listed node with an iterator on it has a second reference.** -/
theorem Valid.ptrCount_ne_one (h : Valid c w) (hi : w.iterators.cell i = some it)
    (hcur : it.current = some a) (ha : a ∈ w.linked) (hnode : w.nodes.cell a = some node) :
    node.ptrCount ≠ 1 := by
  intro hone
  have hroots : Counted c w.nodes (w.otherRoots i + ref (some a)) :=
    h.counted.congr fun b => hcur ▸ roots_eq_otherRoots hi b
  obtain ⟨hother, hin⟩ := hroots.inLinks_of_last hnode hone
  rcases h.first_or_behind ha with hfirst | ⟨b, -, m, hm, hnext⟩
  · simp only [World.otherRoots, Pi.add_apply, hfirst, ref_self] at hother
    omega
  · have := Store.count_eq_zero_iff.mp hin b m hm
    simp [Node.linksTo, hnext] at this

/-! ### Iterating -/

/-- **The iterator** `i` has passed the items `xs` of the list, and `ys` are ahead of it. -/
structure Reading (c : Comparator α) (w : World α) (i : ℕ) (xs ys : List α) : Prop where
  valid : Valid c w
  list : w.list.isSome
  rests : ∃ l₁ l₂ it, w.linked = l₁ ++ l₂ ∧ l₁.filterMap w.item = xs ∧ l₂.filterMap w.item = ys ∧
    w.iterators.cell i = some it ∧ it.current = l₂.head?

theorem Reading.holds (h : Reading c w i xs ys) : Holds c w (xs ++ ys) := by
  obtain ⟨l₁, l₂, it, hl, rfl, rfl, -, -⟩ := h.rests
  exact ⟨h.valid, h.list, by rw [items_of_linked hl, List.filterMap_append]⟩

/-- A new iterator has the whole list ahead. -/
theorem Holds.createIterator (h : Holds c w xs) (hi : i ∉ w.iterators.dom) :
    ∃ w', slCreateIterator w i = some (w', i) ∧ Reading c w' i [] xs := by
  obtain ⟨w', hrun, hset, hiter⟩ := slCreateIterator_spec h.valid h.list hi
  refine ⟨w', hrun, hset.valid, hset.list ▸ h.list, [], w'.linked, ⟨w.first, .func⟩, rfl, rfl,
    (hset.holds h).items, ?_, ?_⟩
  · rw [hiter, Store.insert_cell_self]
  · rw [← hset.valid.first_eq_head, hset.first_eq]

/-- The items of listed nodes, one by one. -/
private theorem Valid.filterMap_item_cons (h : Valid c w) (hl : ∀ a ∈ l, a ∈ w.linked)
    (hys : l.filterMap w.item = y :: ys) :
    ∃ a l', l = a :: l' ∧ w.item a = some y ∧ l'.filterMap w.item = ys := by
  cases l with
  | nil => cases hys
  | cons a l' =>
    obtain ⟨node, hnode⟩ := h.exists_of_mem_linked (hl a (by simp))
    have hitem : w.item a = some node.data := by simp [World.item, hnode]
    rw [List.filterMap_cons_some hitem] at hys
    obtain ⟨hy, hys⟩ := List.cons.inj hys
    exact ⟨a, l', rfl, hy ▸ hitem, hys⟩

/-- The item of the first of some listed nodes. -/
private theorem Valid.head_item (h : Valid c w) (hl : ∀ a ∈ l, a ∈ w.linked)
    (hys : l.filterMap w.item = ys) : l.head?.bind w.item = ys.head? := by
  cases ys with
  | nil =>
    cases l with
    | nil => rfl
    | cons a l =>
      obtain ⟨node, hnode⟩ := h.exists_of_mem_linked (hl a (by simp))
      have hitem : w.item a = some node.data := by simp [World.item, hnode]
      rw [List.filterMap_cons_some hitem] at hys
      cases hys
  | cons y ys =>
    obtain ⟨a, l', rfl, hitem, -⟩ := h.filterMap_item_cons hl hys
    exact hitem

/-- **`SLGetItem`** answers the next item. -/
theorem Reading.getItem (h : Reading c w i xs ys) : slGetItem w i = some ys.head? := by
  obtain ⟨l₁, l₂, it, hl, -, hys, hi, hcur⟩ := h.rests
  rw [slGetItem_spec h.valid hi, hcur, h.valid.head_item (fun a ha => ?_) hys]
  rw [hl]
  exact List.mem_append_right _ ha

/-- **`SLNextItem`** moves on by one item. -/
theorem Reading.nextItem (h : Reading c w i xs (y :: ys)) :
    ∃ w', slNextItem w i = some (w', ys.head?) ∧ Reading c w' i (xs ++ [y]) ys := by
  obtain ⟨l₁, l₂, it, hl, hxs, hys, hi, hcur⟩ := h.rests
  have hmem : ∀ a ∈ l₂, a ∈ w.linked := fun a ha => hl ▸ List.mem_append_right _ ha
  obtain ⟨a, l₂, rfl, hitem, hrest⟩ := h.valid.filterMap_item_cons hmem hys
  obtain ⟨node, hnode, rfl⟩ := World.item_eq_some.mp hitem
  obtain ⟨w', q, freed, hrun, hset, hiter, hadv⟩ := slNextItem_spec h.valid hi hcur hnode
  obtain rfl : q = node.next := by
    rcases hadv with ⟨-, hq, -⟩ | ⟨hone, -⟩
    · exact hq
    · exact absurd hone (h.valid.ptrCount_ne_one hi hcur (hmem a (by simp)) hnode)
  -- the link of the node leads to the first node behind it
  have hnext : node.next = l₂.head? := by
    obtain ⟨-, hp⟩ := (hl ▸ h.valid.path_linked).split_at
    obtain ⟨-, node', hnode', ht⟩ := Store.Path.cons_iff.mp hp
    obtain rfl := Option.some.inj (hnode.symm.trans hnode')
    cases l₂ with
    | nil => exact Store.Path.nil_iff.mp ht
    | cons b l₂ => exact (Store.Path.cons_iff.mp ht).1
  refine ⟨w', ?_, hset.valid, hset.list ▸ h.list, l₁ ++ [a], l₂, { it with current := node.next },
    ?_, ?_, ?_, ?_, hnext⟩
  · rw [hrun, hnext, h.valid.head_item (fun b hb => hmem b (by simp [hb])) hrest]
  · rw [hset.linked_eq h.valid, hl, List.append_assoc]
    rfl
  · rw [hset.filterMap_item h.valid, List.filterMap_append, hxs]
    · simp [hitem]
    · intro b hb
      rw [hl]
      rcases List.mem_append.mp hb with hb | hb
      · exact List.mem_append_left _ hb
      · rw [List.mem_singleton.mp hb]
        simp
  · rw [hset.filterMap_item h.valid (fun b hb => hmem b (by simp [hb])), hrest]
  · rw [hiter, Store.insert_cell_self]

/-- **`SLDestroyIterator`** leaves the list as it is. -/
theorem Reading.destroyIterator (h : Reading c w i xs ys) :
    ∃ w', slDestroyIterator w i = some w' ∧ Holds c w' (xs ++ ys) := by
  obtain ⟨l₁, l₂, it, -, -, -, hi, -⟩ := h.rests
  obtain ⟨w', freed, hrun, hset, -⟩ := slDestroyIterator_spec h.valid hi
  exact ⟨w', hrun, hset.holds h.holds⟩

end Cs214.SortedList
